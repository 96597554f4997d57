import Tally.Proofs.Code.Cuts
import Tally.Proofs.Machine.Activations
import Tally.Proofs.Machine.CallChecks
import Tally.Proofs.Machine.Isolation

namespace Tally

open Machine (on next)

/-- A value that is a native only if it is one of these. With `fun _ => True` for `natives` every
value is; other choices leave out native values that no prototype of the code stands for, which a
native routine may hand out. -/
def Value.Among (natives : Native → Prop) (v : Value) : Prop := ∀ n, v = .native n → natives n

/-- Where one of these natives is called and returns, its arguments are replaced by one value. With
`fun _ => True` this is said of all natives and all stacks, and nothing else is asked of the value;
with other choices it is said of stacks that hold no natives but these, and the value that replaces
the arguments may be none either. -/
def Setup.Replaces {σ : Type} (setup : Setup σ) (natives : Native → Prop) : Prop :=
  ∀ n, natives n → ∀ args m m', (∀ v ∈ m.stack.toList, v.Among natives) →
    setup.callNative n args m = .ok () m' →
      ∃ v, v.Among natives ∧ m'.stack.toList = v :: m.stack.toList.drop args

def Code.pushed? (c : Code) : Instr Nat → Option Value
  | .pushFunc target => some (.address target)
  | .pushNative index => c.natives[index]?.map .native
  | _ => none

def ReturnAt (ls : List Line) (back : Nat) : Prop :=
  ∃ before n after, ls = before ++ .instr (.call n) :: after ∧
    back = sizeOfLines before + Opcode.call.size

def Activations.Nested (k : Plan) (ls : List Line) (natives : Native → Prop) : Activations → Prop
  | top temps => ∀ v ∈ temps, v.Among natives
  | called temps back args below => (∀ v ∈ temps, v.Among natives) ∧ (∀ v ∈ args, v.Among natives) ∧
      k.Site back below.arity? (below.temps.length + 1) ∧ ReturnAt ls back ∧
      below.Nested k ls natives

namespace Plan

structure Offers (k : Plan) (ls : List Line) (natives : Native → Prop) : Prop where
  holds : k.code.Holds k.addr 0 ls
  length : k.code.length = sizeOfLines ls
  start : k.Site 0 none 0
  targets : ∀ i l, .instr i ∈ ls → i.target? = some l → .label l ∈ ls
  functions : ∀ a f, k.code.functionAt? a = some f → ∃ l n : Nat, .label l ∈ ls ∧
    a = (k.addr l : Number) ∧ f.arity = n ∧ k.Site (k.addr l) (some n) 0
  natives : ∀ i, i < k.natives → ∃ n, k.code.natives[i]? = some n ∧ natives n

/-- Control stands at an instruction that fits the activations. Where a value was pushed to be
called, it is on top. -/
structure Arrives (k : Plan) (ls : List Line) (natives : Native → Prop) (pc : Nat)
    (a : Activations) : Prop where
  site : k.Site pc a.arity? a.temps.length
  listed : ∃ i, InstrAt ls pc i
  nested : a.Nested k ls natives
  fed : ∀ i v, CallBehind ls i pc → k.code.pushed? (i.map k.addr) = some v → a.temps.head? = some v

end Plan

namespace Activations

variable {k : Plan} {ls : List Line} {natives : Native → Prop} {a : Activations}

theorem Nested.temps (nested : a.Nested k ls natives) : ∀ v ∈ a.temps, v.Among natives := by
  cases a with
  | top temps => exact nested
  | called temps back args below => exact nested.1

theorem Nested.replace (nested : a.Nested k ls natives) {temps : List Value}
    (among : ∀ v ∈ temps, v.Among natives) : (a.replace temps).Nested k ls natives := by
  cases a with
  | top _ => exact among
  | called _ back args below => exact ⟨among, nested.2⟩

theorem Nested.values (nested : a.Nested k ls natives) : ∀ v ∈ a.values, v.Among natives := by
  induction a with
  | top temps => exact nested
  | called temps back args below ih =>
    obtain ⟨among, arguments, _, _, deeper⟩ := nested
    intro v member
    rcases List.mem_append.mp member with member | member
    · exact among v member
    · rcases List.mem_cons.mp member with rfl | member
      · nofun
      · rcases List.mem_append.mp member with member | member
        · exact arguments v member
        · exact ih deeper v member

end Activations

namespace Plan

variable {k : Plan} {ls : List Line} {natives : Native → Prop} {pc : Nat} {a : Activations}

theorem Site.exists_hasInstr {depth : Nat} {arity? : Option Nat} (site : k.Site pc arity? depth) :
    ∃ i, k.code.HasInstr pc i := by
  obtain ⟨i, _, here, _⟩ := site.cases
  exact ⟨_, here⟩

theorem Offers.listed (offers : k.Offers ls natives) {before after : List Line}
    (split : ls = before ++ after) (place : pc = sizeOfLines before) {depth : Nat}
    {arity? : Option Nat} (site : k.Site pc arity? depth) : ∃ i, InstrAt ls pc i := by
  obtain ⟨i, here⟩ := site.exists_hasInstr
  subst place
  exact exists_instrAt offers.length split here

namespace Arrives

theorem exists_split (offers : k.Offers ls natives) (arrives : k.Arrives ls natives pc a)
    {i : Instr Nat} (here : k.code.HasInstr pc i) :
    ∃ before j after, ls = before ++ .instr j :: after ∧ pc = sizeOfLines before ∧
      j.map k.addr = i := by
  obtain ⟨j, listed⟩ := arrives.listed
  have same : j.map k.addr = i := (listed.hasInstr offers.holds).unique here
  obtain ⟨before, after, split, place⟩ := listed
  exact ⟨before, j, after, split, place, same⟩

theorem onward (offers : k.Offers ls natives) (arrives : k.Arrives ls natives pc a)
    {i : Instr Label} (here : k.code.HasInstr pc (i.map k.addr)) {temps : List Value}
    (among : ∀ v ∈ temps, v.Among natives) (site : k.Site (pc + i.size) a.arity? temps.length)
    (fed : ∀ v, k.code.pushed? (i.map k.addr) = some v → temps.head? = some v) :
    k.Arrives ls natives (pc + i.size) (a.replace temps) := by
  obtain ⟨before, j, after, split, rfl, same⟩ := arrives.exists_split offers here
  have size : j.size = i.size := by
    rw [← j.size_map k.addr, same, i.size_map]
  have behind : ls = (before ++ [.instr j]) ++ after := by
    rw [List.append_assoc]
    exact split
  have place : sizeOfLines (before ++ [.instr j]) = sizeOfLines before + i.size := by
    rw [sizeOfLines_append, sizeOfLines_instr, ← size]
    rfl
  constructor
  · rw [a.arity?_replace, a.temps_replace]
    exact site
  · exact offers.listed behind place.symm site
  · exact arrives.nested.replace among
  · -- A call right behind stands behind this instruction and no other.
    intro last v called pushed
    rw [← size] at called
    rw [← called.eq_of_instr split, same] at pushed
    rw [a.temps_replace]
    exact fed v pushed

theorem at_label (offers : k.Offers ls natives) {l : Label} (named : .label l ∈ ls)
    (site : k.Site (k.addr l) a.arity? a.temps.length) (nested : a.Nested k ls natives) :
    k.Arrives ls natives (k.addr l) a := by
  obtain ⟨before, after, split⟩ := List.append_of_mem named
  have address : k.addr l = sizeOfLines before := by
    have holds := offers.holds
    rw [split] at holds
    exact holds.address.trans (Nat.zero_add _)
  refine ⟨site, offers.listed split address site, nested, ?_⟩
  intro i v called
  rw [address] at called
  exact absurd called (CallBehind.not_label split)

theorem at_return (offers : k.Offers ls natives) (returned : ReturnAt ls pc)
    (site : k.Site pc a.arity? a.temps.length) (nested : a.Nested k ls natives) :
    k.Arrives ls natives pc a := by
  obtain ⟨before, n, after, split, rfl⟩ := returned
  have behind : ls = (before ++ [.instr (.call n)]) ++ after := by
    rw [List.append_assoc]
    exact split
  have place : sizeOfLines (before ++ [.instr (.call n)]) =
      sizeOfLines before + Opcode.call.size := sizeOfLines_append _ _
  refine ⟨site, offers.listed behind place.symm site, nested, ?_⟩
  intro i v called pushed
  -- What is behind a call was not pushed for a name.
  have last : Instr.call n = i := CallBehind.eq_of_instr split called
  cases last
  cases pushed

theorem at_start (offers : k.Offers ls natives) : k.Arrives ls natives 0 (.top []) := by
  refine ⟨offers.start, offers.listed (List.nil_append ls).symm rfl offers.start,
    fun _ member => absurd member List.not_mem_nil, ?_⟩
  intro i v called
  exact absurd called CallBehind.not_start

end Arrives

end Plan

theorem Machine.Step.Pushes.eq_of_next {σ : Type} {setup : Setup σ} {origin pc : Nat} {v : Value}
    {vs : List Value} {host : σ} {s : Machine.Step σ} {m : Machine σ}
    (pushes : s.Pushes setup origin pc v vs host) (stepped : s = .next m) :
    m = on pc (v :: vs) host := by
  rcases pushes with ⟨_, went⟩ | ⟨_, _, halted, _⟩
  · cases stepped.symm.trans went
    rfl
  · cases stepped.symm.trans halted

section

variable {σ : Type} {k : Plan} {registry : Registry σ} {capacity : Nat} {ls : List Line}
  {natives : Native → Prop} {pc : Nat} {a : Activations} {host : σ} {m : Machine σ}

def Plan.Holds (k : Plan) (ls : List Line) (natives : Native → Prop) (m : Machine σ) : Prop :=
  ∃ pc a host, m = on pc a.values host ∧ k.Arrives ls natives pc a

namespace Plan.Arrives

theorem among_of_cons (arrives : k.Arrives ls natives pc a) {v : Value} {temps : List Value}
    (split : a.temps = v :: temps) : v.Among natives ∧ ∀ w ∈ temps, w.Among natives := by
  have all := arrives.nested.temps
  rw [split] at all
  exact List.forall_mem_cons.mp all

theorem holds_within (offers : k.Offers ls natives) (arrives : k.Arrives ls natives pc a)
    {i : Instr Label} (here : k.code.HasInstr pc (i.map k.addr)) (temps : List Value)
    (same : m = on (pc + i.size) (temps ++ a.rest) host) (among : ∀ v ∈ temps, v.Among natives)
    (site : k.Site (pc + i.size) a.arity? temps.length)
    (fed : ∀ v, k.code.pushed? (i.map k.addr) = some v → temps.head? = some v) :
    k.Holds ls natives m := by
  refine ⟨_, a.replace temps, host, ?_, arrives.onward offers here among site fed⟩
  rw [a.values_replace]
  exact same

theorem holds_value (offers : k.Offers ls natives) (arrives : k.Arrives ls natives pc a)
    {i : Instr Label} (here : k.code.HasInstr pc (i.map k.addr)) {v : Value}
    (same : m = on (pc + i.size) (v :: a.values) host) (among : v.Among natives)
    (site : k.Site (pc + i.size) a.arity? (a.temps.length + 1))
    (fed : ∀ w, k.code.pushed? (i.map k.addr) = some w → v = w) : k.Holds ls natives m := by
  rw [a.values_eq] at same
  have both := List.forall_mem_cons.mpr ⟨among, arrives.nested.temps⟩
  refine arrives.holds_within offers here (v :: a.temps) same both site ?_
  intro w pushed
  rw [fed w pushed]
  rfl

theorem holds_call_native (offers : k.Offers ls natives) (arrives : k.Arrives ls natives pc a)
    (replaces : (Setup.mk k.code registry capacity).Replaces natives) {q : Native} {n : Nat}
    {more : List Value} (here : k.code.HasInstr pc (.call n))
    (site : k.Site (pc + Opcode.call.size) a.arity? (more.length + 1 - n))
    (split : a.temps = .native q :: more) (enough : n ≤ more.length)
    (stepped : next ⟨k.code, registry, capacity⟩ (on pc (.native q :: (more ++ a.rest)) host) =
      .next m) : k.Holds ls natives m := by
  have called := Machine.callNative_of_next here stepped
  have known : natives q := (arrives.among_of_cons split).1 q rfl
  have values := arrives.nested.values
  rw [a.values_eq, split] at values
  obtain ⟨v, among, stack⟩ := replaces q known n _ m
    (fun w member => values w (List.mem_cons_of_mem _ member)) called
  have left : m.stack.toList = v :: more.drop n ++ a.rest := by
    rw [stack]
    exact congrArg (v :: ·) (List.drop_append_of_le_length enough)
  have place : m.pc = pc + Opcode.call.size := Setup.pc_of_callNative called
  have others : ∀ w ∈ more.drop n, w.Among natives := fun w member =>
    (arrives.among_of_cons split).2 w (List.mem_of_mem_drop member)
  have both := List.forall_mem_cons.mpr ⟨among, others⟩
  have depth : (v :: more.drop n).length = more.length + 1 - n := by
    rw [List.length_cons, List.length_drop]
    omega
  rw [← depth] at site
  exact arrives.holds_within (i := .call n) offers here (v :: more.drop n)
    (Machine.eq_on place left) both site nofun

theorem holds_call_function (offers : k.Offers ls natives) (arrives : k.Arrives ls natives pc a)
    {target : Number} {n : Nat} {more : List Value} (here : k.code.HasInstr pc (.call n))
    (site : k.Site (pc + Opcode.call.size) a.arity? (more.length + 1 - n))
    (split : a.temps = .address target :: more) (enough : n ≤ more.length)
    (stepped : next ⟨k.code, registry, capacity⟩ (on pc (.address target :: (more ++ a.rest)) host) =
      .next m) : k.Holds ls natives m := by
  obtain ⟨f, found, arity⟩ := Code.function_of_callFault? (Machine.callFault?_of_next here stepped)
  obtain ⟨l, count, named, rfl, known, entry⟩ := offers.functions target f found
  have same : count = n := Rat.natCast_inj.mp (known.symm.trans arity)
  subst same
  obtain ⟨_, among⟩ := arrives.among_of_cons split
  have args : (more.take count).length = count := List.length_take_of_le enough
  have fewer : count ≤ (more ++ a.rest).length := by
    rw [List.length_append]
    exact Nat.le_add_right_of_le enough
  have pushes : (next ⟨k.code, registry, capacity⟩
      (on pc (.address (k.addr l : Number) :: (more ++ a.rest)) host)).Pushes _ _ _ _ _ _ :=
    Machine.next_call_function _ host here found arity fewer
  have whole : more ++ a.rest = more.take count ++ (a.replace (more.drop count)).values := by
    rw [a.values_replace, ← List.append_assoc, List.take_append_drop]
  have returned : ReturnAt ls (pc + Opcode.call.size) := by
    obtain ⟨before, j, after, lines, place, called⟩ := arrives.exists_split offers here
    cases j <;> cases called
    exact ⟨before, _, after, lines, congrArg (· + _) place⟩
  refine ⟨k.addr l, .called [] (pc + Opcode.call.size) (more.take count)
    (a.replace (more.drop count)), host, ?_, at_label offers named ?_ ?_⟩
  · rw [pushes.eq_of_next stepped, whole]
    rfl
  · change k.Site (k.addr l) (some (more.take count).length) 0
    rw [args]
    exact entry
  · refine ⟨fun _ member => absurd member List.not_mem_nil,
      fun v member => among v (List.mem_of_mem_take member), ?_, returned,
      arrives.nested.replace fun v member => among v (List.mem_of_mem_drop member)⟩
    have depth : more.length - count + 1 = more.length + 1 - count := by omega
    rw [a.arity?_replace, a.temps_replace, List.length_drop, depth]
    exact site

theorem holds_call (offers : k.Offers ls natives) (arrives : k.Arrives ls natives pc a)
    (replaces : (Setup.mk k.code registry capacity).Replaces natives) {n depth' : Nat}
    (here : k.code.HasInstr pc (.call n))
    (counted : (Instr.call n : Instr Label).depthAfter a.arity? a.temps.length = some depth')
    (site : k.Site (pc + Opcode.call.size) a.arity? depth')
    (stepped : next ⟨k.code, registry, capacity⟩ (on pc a.values host) = .next m) :
    k.Holds ls natives m := by
  obtain ⟨inside, rfl⟩ := Instr.counted_call counted
  obtain ⟨callee, more, split, values⟩ := a.exists_cons (by omega)
  rw [split, List.length_cons] at inside site
  rw [values] at stepped
  cases callee with
  | int z => cases stepped.symm.trans (Machine.next_call_int _ host here)
  | native q =>
    exact arrives.holds_call_native offers replaces here site split (by omega) stepped
  | address target =>
    exact arrives.holds_call_function offers here site split (by omega) stepped

theorem holds_ret (offers : k.Offers ls natives) (arrives : k.Arrives ls natives pc a)
    {depth n depth' : Nat} (here : k.code.HasInstr pc (.ret depth n))
    (counted : (Instr.ret depth n : Instr Label).depthAfter a.arity? a.temps.length = some depth')
    (stepped : next ⟨k.code, registry, capacity⟩ (on pc a.values host) = .next m) :
    k.Holds ls natives m := by
  obtain ⟨arity, rfl, one, _⟩ := Instr.counted_ret counted
  cases a with
  | top temps => cases arity
  | called temps back args below =>
    obtain ⟨v, rfl⟩ := List.length_eq_one_iff.mp one
    cases Option.some.inj arity
    obtain ⟨among, _, site, returned, nested⟩ := arrives.nested
    have pushes : (next ⟨k.code, registry, capacity⟩
        (on pc (v :: .address back :: (args ++ below.values)) host)).Pushes _ _ _ _ _ _ :=
      Machine.next_ret _ host here (by simp)
    rw [List.drop_left] at pushes
    refine ⟨back, below.replace (v :: below.temps), host, ?_, at_return offers returned ?_ ?_⟩
    · rw [pushes.eq_of_next stepped, below.values_replace, below.values_eq]
      rfl
    · rw [below.arity?_replace, below.temps_replace]
      exact site
    · exact nested.replace
        (List.forall_mem_cons.mpr ⟨among v List.mem_cons_self, nested.temps⟩)

theorem holds_add (offers : k.Offers ls natives) (arrives : k.Arrives ls natives pc a) {depth' : Nat}
    (here : k.code.HasInstr pc .add)
    (counted : (Instr.add : Instr Label).depthAfter a.arity? a.temps.length = some depth')
    (behind : k.Site (pc + Opcode.add.size) a.arity? depth')
    (stepped : next ⟨k.code, registry, capacity⟩ (on pc a.values host) = .next m) :
    k.Holds ls natives m := by
  obtain ⟨inside, rfl⟩ := Instr.counted_add counted
  obtain ⟨right, more, split, values⟩ := a.exists_cons (by omega)
  rw [split, List.length_cons] at inside behind
  obtain ⟨left, temps, rfl⟩ := List.exists_cons_of_length_pos (l := more) (by omega)
  rw [values] at stepped
  obtain ⟨_, among⟩ := arrives.among_of_cons split
  by_cases ints : left.kind = .int ∧ right.kind = .int
  · cases left with
    | native _ | address _ => cases ints.1
    | int x =>
      cases right with
      | native _ | address _ => cases ints.2
      | int y =>
        have sum : Value.Among natives (.int (x + y)) := nofun
        have both := List.forall_mem_cons.mpr ⟨sum, (List.forall_mem_cons.mp among).2⟩
        exact arrives.holds_within (i := .add) offers here (.int (x + y) :: temps)
          ((Machine.next_add_int _ host here).eq_of_next stepped) both behind nofun
  · cases stepped.symm.trans (Machine.next_add_other _ host here ints)

theorem holds_pop (offers : k.Offers ls natives) (arrives : k.Arrives ls natives pc a) {depth' : Nat}
    (here : k.code.HasInstr pc .pop)
    (counted : (Instr.pop : Instr Label).depthAfter a.arity? a.temps.length = some depth')
    (behind : k.Site (pc + Opcode.pop.size) a.arity? depth')
    (stepped : next ⟨k.code, registry, capacity⟩ (on pc a.values host) = .next m) :
    k.Holds ls natives m := by
  obtain ⟨enough, rfl⟩ := Instr.counted_pop counted
  obtain ⟨v, temps, split, values⟩ := a.exists_cons enough
  rw [values] at stepped
  rw [split] at behind
  cases stepped.symm.trans (Machine.next_pop _ host here)
  exact arrives.holds_within (i := .pop) offers here temps rfl (arrives.among_of_cons split).2 behind
    nofun

theorem holds_peek (offers : k.Offers ls natives) (arrives : k.Arrives ls natives pc a)
    {depth depth' : Nat} (here : k.code.HasInstr pc (.peek depth))
    (counted : (Instr.peek depth : Instr Label).depthAfter a.arity? a.temps.length = some depth')
    (behind : k.Site (pc + Opcode.peek.size) a.arity? depth')
    (stepped : next ⟨k.code, registry, capacity⟩ (on pc a.values host) = .next m) :
    k.Holds ls natives m := by
  cases a with
  | top temps => cases counted
  | called temps back args below =>
    obtain ⟨n, arity, lower, upper, rfl⟩ := Instr.counted_peek counted
    cases Option.some.inj arity
    obtain ⟨v, found, member⟩ := Activations.getElem?_argument back below ⟨lower, upper⟩
    exact arrives.holds_value (i := .peek depth) offers here
      ((Machine.next_peek _ host here found).eq_of_next stepped) (arrives.nested.2.1 v member) behind
      nofun

theorem holds_jump (offers : k.Offers ls natives) (arrives : k.Arrives ls natives pc a)
    {i : Instr Label} {l : Label} (here : k.code.HasInstr pc (i.map k.addr))
    (jumps : i.jumpTarget? = some l) (site : k.Site (k.addr l) a.arity? 0)
    (same : m = on (k.addr l) a.rest host) : k.Holds ls natives m := by
  obtain ⟨before, j, after, split, _, called⟩ := arrives.exists_split offers here
  have member : .instr j ∈ ls := by
    rw [split]
    simp
  obtain ⟨l', target, address⟩ : ∃ l', j.target? = some l' ∧ k.addr l' = k.addr l := by
    cases i <;> cases jumps <;> cases j <;> simp_all [Instr.map, Instr.target?]
  have named := offers.targets j l' member target
  rw [← address] at site same
  refine ⟨k.addr l', a.replace [], host, ?_, at_label offers named ?_ ?_⟩
  · rw [a.values_replace]
    exact same
  · rw [a.arity?_replace, a.temps_replace]
    exact site
  · exact arrives.nested.replace fun _ member => absurd member List.not_mem_nil

theorem holds_jumpFalse (offers : k.Offers ls natives) (arrives : k.Arrives ls natives pc a)
    {l : Label} {depth' : Nat} (here : k.code.HasInstr pc (.jumpFalse (k.addr l)))
    (counted : (Instr.jumpFalse l : Instr Label).depthAfter a.arity? a.temps.length = some depth')
    (behind : k.Site (pc + Opcode.jumpFalse.size) a.arity? depth')
    (there : k.Site (k.addr l) a.arity? depth')
    (stepped : next ⟨k.code, registry, capacity⟩ (on pc a.values host) = .next m) :
    k.Holds ls natives m := by
  obtain ⟨one, rfl⟩ := Instr.counted_jumpFalse counted
  obtain ⟨v, temps, split, values⟩ := a.exists_cons (Nat.le_of_eq one.symm)
  rw [split] at one
  cases List.length_eq_zero_iff.mp (Nat.succ.inj one)
  rw [values] at stepped
  cases stepped.symm.trans (Machine.next_jumpFalse _ host here)
  cases v.truthy with
  | true =>
    exact arrives.holds_within (i := .jumpFalse l) offers here [] rfl (by simp) behind nofun
  | false => exact arrives.holds_jump (i := .jumpFalse l) offers here rfl there rfl

/-- A step leads from an arrival to an arrival. -/
theorem step (offers : k.Offers ls natives) (arrives : k.Arrives ls natives pc a)
    (replaces : (Setup.mk k.code registry capacity).Replaces natives)
    (stepped : next ⟨k.code, registry, capacity⟩ (on pc a.values host) = .next m) :
    k.Holds ls natives m := by
  obtain ⟨i, depth', here, counted, leads⟩ := arrives.site.cases
  rcases leads with leaves | ⟨⟨labels, refers⟩, behind, jumps⟩
  · cases arity : a.arity? with
    | none =>
      rw [arity] at leaves
      subst leaves
      cases stepped.symm.trans (Machine.next_stop _ host here)
    | some n =>
      rw [arity] at leaves
      subst leaves
      exact arrives.holds_ret offers here counted stepped
  · cases i with
    | pushFunc l =>
      cases Option.some.inj counted
      refine arrives.holds_value offers here
        ((Machine.next_pushFunc _ host here).eq_of_next stepped) nofun behind ?_
      intro w pushed
      exact Option.some.inj pushed
    | pushNative index =>
      cases Option.some.inj counted
      obtain ⟨n, bound, known⟩ := offers.natives index refers
      refine arrives.holds_value offers here
        ((Machine.next_pushNative _ host here bound).eq_of_next stepped) ?_ behind ?_
      · intro other same
        cases same
        exact known
      · intro w pushed
        change k.code.natives[index]?.map Value.native = some w at pushed
        rw [bound] at pushed
        exact Option.some.inj pushed
    | pushInt z =>
      cases Option.some.inj counted
      exact arrives.holds_value offers here
        ((Machine.next_pushInt _ host here).eq_of_next stepped) nofun behind nofun
    | peek depth => exact arrives.holds_peek offers here counted behind stepped
    | add => exact arrives.holds_add offers here counted behind stepped
    | call n => exact arrives.holds_call offers replaces here counted behind stepped
    | ret depth n => exact arrives.holds_ret offers here counted stepped
    | stop => exact refers.elim
    | pop => exact arrives.holds_pop offers here counted behind stepped
    | jumpFalse l => exact arrives.holds_jumpFalse offers here counted behind (jumps l rfl) stepped
    | jump l =>
      obtain ⟨none, rfl⟩ := Instr.counted_jump counted
      cases stepped.symm.trans (Machine.next_jump _ host here)
      have values : a.values = a.rest := by
        rw [a.values_eq, List.length_eq_zero_iff.mp none, List.nil_append]
      exact arrives.holds_jump offers here rfl (jumps l rfl) (congrArg (on _ · host) values)

end Plan.Arrives

end

end Tally

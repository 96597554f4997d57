import Tally.Proofs.Machine.Activations
import Tally.Proofs.Machine.Runs

namespace Tally

open Machine (on next Finished)

variable {k : Plan} {capacity pc : Nat} {a : Activations}

def Plan.Goes (k : Plan) (capacity pc : Nat) (a : Activations) (s : Machine.Step Memory) : Prop :=
  (∃ why m, s = .halt why m ∧ Finished why m) ∨
    ∃ i pc' a' host, k.code.HasInstr pc i ∧ s = .next (on pc' a'.values host) ∧
      a.Moves pc i pc' a' ∧ k.Stands capacity pc' a'

namespace Plan

theorem goes_fault {s : Machine.Step Memory} {f : Fault} {own : Number} {m : Machine Memory}
    (halted : s = .halt (.fault f own) m) (ordinary : f.OfProgram) : k.Goes capacity pc a s :=
  Or.inl ⟨_, m, halted, Or.inr ⟨f, own, rfl, ordinary⟩⟩

namespace Stands

theorem goes_within (stands : k.Stands capacity pc a) {s : Machine.Step Memory} {i : Instr Nat}
    {pc' : Nat} (temps : List Value) {host : Memory} (here : k.code.HasInstr pc i)
    (stepped : s = .next (on pc' (temps ++ a.rest) host))
    (counted : i.depthAfter a.arity? a.temps.length = some temps.length)
    (stays : ∀ depth args, i ≠ .ret depth args)
    (enters : ∀ n, i = .call n → ∀ v, a.temps.head? = some v → v.kind ≠ .address)
    (site : k.Site pc' a.arity? temps.length) (plain : ∀ v ∈ temps, v.Plain k)
    (low : (temps ++ a.rest).length ≤ capacity) : k.Goes capacity pc a s := by
  right
  refine ⟨i, pc', a.replace temps, host, here, ?_, .within counted stays enters, ?_, ?_, ?_⟩
  · rw [a.values_replace]
    exact stepped
  · rw [a.arity?_replace, a.temps_replace]
    exact site
  · exact stands.sound.replace plain
  · rw [a.values_replace]
    exact low

theorem goes_push (stands : k.Stands capacity pc a) {s : Machine.Step Memory} {i : Instr Nat}
    {pc' : Nat} {v : Value} {temps : List Value} {host : Memory} (here : k.code.HasInstr pc i)
    (pushes : s.Pushes (.inMemory k.code capacity) pc pc' v (temps ++ a.rest) host)
    (counted : i.depthAfter a.arity? a.temps.length = some (temps.length + 1))
    (stays : ∀ depth args, i ≠ .ret depth args)
    (enters : ∀ n, i = .call n → ∀ v, a.temps.head? = some v → v.kind ≠ .address)
    (site : k.Site pc' a.arity? (temps.length + 1)) (plain : v.Plain k)
    (plains : ∀ v ∈ temps, v.Plain k) : k.Goes capacity pc a s := by
  rcases pushes with ⟨room, stepped⟩ | ⟨_, m, halted, _⟩
  · apply stands.goes_within (v :: temps) here stepped counted stays enters site
    · intro w member
      rcases List.mem_cons.mp member with rfl | member
      · exact plain
      · exact plains w member
    · exact room
  · exact goes_fault halted trivial

theorem plain_of_cons (stands : k.Stands capacity pc a) {v : Value} {temps : List Value}
    (split : a.temps = v :: temps) : v.Plain k ∧ ∀ w ∈ temps, w.Plain k := by
  have all := stands.sound.temps
  rw [split] at all
  exact ⟨all v List.mem_cons_self, fun w member => all w (List.mem_cons_of_mem _ member)⟩

theorem low_of_le (stands : k.Stands capacity pc a) {temps : List Value}
    (fewer : temps.length ≤ a.temps.length) : (temps ++ a.rest).length ≤ capacity := by
  have low := stands.low
  rw [a.values_eq, List.length_append] at low
  rw [List.length_append]
  omega

theorem next_ret (stands : k.Stands capacity pc a) {depth args : Nat} (host : Memory)
    (here : k.code.HasInstr pc (.ret depth args)) :
    ∃ v back values below, a = .called [v] back values below ∧ depth = 0 ∧ args = values.length ∧
      next (.inMemory k.code capacity) (on pc a.values host) =
        .next (on back (v :: below.values) host) := by
  obtain ⟨i, depth', there, counted, _⟩ := stands.site.cases
  rw [← i.depthAfter_map k.addr, there.unique here] at counted
  obtain ⟨arity, rfl, one, _⟩ := Instr.counted_ret counted
  cases a with
  | top temps => cases arity
  | called temps back values below =>
    obtain ⟨v, rfl⟩ := List.length_eq_one_iff.mp one
    cases Option.some.inj arity
    have low := stands.low
    simp only [Activations.values, List.length_append, List.length_cons] at low
    have dropped : (values ++ below.values).drop values.length = below.values :=
      List.drop_left
    have pushes : (next (.inMemory k.code capacity)
        (on pc (v :: .address back :: (values ++ below.values)) host)).Pushes _ _ _ _ _ _ :=
      Machine.next_ret _ host here (by simp)
    rw [dropped] at pushes
    refine ⟨v, back, values, below, rfl, rfl, rfl, ?_⟩
    rcases pushes with ⟨_, stepped⟩ | ⟨full, _⟩
    · exact stepped
    · have room : capacity ≤ below.values.length := full
      omega

theorem goes_call_native (stands : k.Stands capacity pc a) {q : Native} {n : Nat}
    {more : List Value} (host : Memory) (here : k.code.HasInstr pc (.call n))
    (counted : (Instr.call n : Instr Nat).depthAfter a.arity? a.temps.length =
      some (more.length + 1 - n))
    (site : k.Site (pc + Opcode.call.size) a.arity? (more.length + 1 - n))
    (split : a.temps = .native q :: more) (enough : n ≤ more.length) (arity : q.arity = n) :
    k.Goes capacity pc a
      (next (.inMemory k.code capacity) (on pc (.native q :: (more ++ a.rest)) host)) := by
  obtain ⟨plain, plains⟩ := stands.plain_of_cons split
  have stays : ∀ depth args, (Instr.call n : Instr Nat) ≠ .ret depth args := nofun
  have enters : ∀ m, (Instr.call n : Instr Nat) = .call m → ∀ v, a.temps.head? = some v →
      v.kind ≠ .address := by
    intro _ _ v first
    rw [split] at first
    cases first
    nofun
  rcases plain with ⟨primitive, one⟩ | ⟨primitive, none⟩
  · have same : n = 1 := Rat.natCast_inj.mp (arity.symm.trans one)
    subst same
    cases more with
    | nil => exact absurd enough (Nat.not_succ_le_zero 0)
    | cons w temps =>
      rw [List.cons_append]
      cases w with
      | int z =>
        exact stands.goes_push here (Machine.next_call_print _ host here one primitive) counted
          stays enters site trivial fun v member => plains v (List.mem_cons_of_mem _ member)
      | native _ | address _ =>
        exact goes_fault (Machine.next_call_print_other _ host here one primitive nofun)
          trivial
  · have same : n = 0 := Rat.natCast_inj.mp (arity.symm.trans none)
    subst same
    exact stands.goes_push here (Machine.next_call_read _ host here none primitive) counted
      stays enters site trivial plains

theorem goes_call_function (stands : k.Stands capacity pc a) {entry n : Nat} {f : EntryPoint}
    {more : List Value} (host : Memory) (here : k.code.HasInstr pc (.call n))
    (found : k.code.functionAt? (entry : Number) = some f) (arity : f.arity = n)
    (start : k.Site entry (some n) 0)
    (site : k.Site (pc + Opcode.call.size) a.arity? (more.length + 1 - n))
    (split : a.temps = .address entry :: more) (enough : n ≤ more.length) :
    k.Goes capacity pc a
      (next (.inMemory k.code capacity) (on pc (.address entry :: (more ++ a.rest)) host)) := by
  obtain ⟨_, plains⟩ := stands.plain_of_cons split
  have fewer : n ≤ (more ++ a.rest).length := by
    rw [List.length_append]
    exact Nat.le_add_right_of_le enough
  have args : (more.take n).length = n := List.length_take_of_le enough
  have whole : more ++ a.rest = more.take n ++ (a.replace (more.drop n)).values := by
    rw [a.values_replace, ← List.append_assoc, List.take_append_drop]
  have pushes : (next (.inMemory k.code capacity)
      (on pc (.address entry :: (more ++ a.rest)) host)).Pushes _ _ _ _ _ _ :=
    Machine.next_call_function _ host here found arity fewer
  rcases pushes with ⟨room, stepped⟩ | ⟨_, m, halted, _⟩
  · right
    refine ⟨.call n, entry,
      .called [] (pc + Opcode.call.size) (more.take n) (a.replace (more.drop n)), host,
      here, ?_, .call (by rw [args]) ?_, ?_⟩
    · rw [stepped, whole]
      rfl
    · rw [split, List.take_append_drop]
    · constructor
      · change k.Site entry (some (more.take n).length) 0
        rw [args]
        exact start
      · refine ⟨fun _ member => absurd member List.not_mem_nil, ?_, ?_, ?_⟩
        · intro v member
          exact plains v (List.mem_of_mem_take member)
        · rw [a.arity?_replace, a.temps_replace, List.length_drop]
          have depth : more.length - n + 1 = more.length + 1 - n := by omega
          rw [depth]
          exact site
        · exact stands.sound.replace fun v member => plains v (List.mem_of_mem_drop member)
      · change (.address (pc + Opcode.call.size : Nat) ::
          (more.take n ++ (a.replace (more.drop n)).values)).length ≤ capacity
        rw [← whole]
        exact room
  · exact goes_fault halted trivial

theorem goes_call (stands : k.Stands capacity pc a) {n depth' : Nat} (host : Memory)
    (here : k.code.HasInstr pc (.call n))
    (counted : (Instr.call n : Instr Nat).depthAfter a.arity? a.temps.length = some depth')
    (site : k.Site (pc + Opcode.call.size) a.arity? depth') :
    k.Goes capacity pc a (next (.inMemory k.code capacity) (on pc a.values host)) := by
  have enough := Instr.counted_call counted
  obtain ⟨callee, more, split, values⟩ := a.exists_cons (by omega)
  obtain ⟨plain, _⟩ := stands.plain_of_cons split
  rw [split, List.length_cons] at enough
  obtain ⟨inside, rfl⟩ := enough
  rw [values]
  cases callee with
  | int z => exact goes_fault (Machine.next_call_int _ host here) trivial
  | native q =>
    by_cases arity : q.arity = n
    · exact stands.goes_call_native host here counted site split (by omega) arity
    · exact goes_fault (Machine.next_call_native_arity _ host here arity) trivial
  | address target =>
    obtain ⟨entry, count, f, rfl, found, known, start⟩ := plain
    by_cases arity : f.arity = n
    · have same : count = n := Rat.natCast_inj.mp (known.symm.trans arity)
      subst same
      exact stands.goes_call_function host here found arity start site split (by omega)
    · exact goes_fault (Machine.next_call_function_arity _ host here found arity) trivial

theorem goes_value (stands : k.Stands capacity pc a) {i : Instr Nat} {pc' : Nat} {v : Value}
    {host : Memory} (here : k.code.HasInstr pc i)
    (pushes : (next (.inMemory k.code capacity) (on pc a.values host)).Pushes
      (.inMemory k.code capacity) pc pc' v a.values host)
    (counted : i.depthAfter a.arity? a.temps.length = some (a.temps.length + 1))
    (stays : ∀ depth args, i ≠ .ret depth args) (silent : ∀ n, i ≠ .call n)
    (site : k.Site pc' a.arity? (a.temps.length + 1)) (plain : v.Plain k) :
    k.Goes capacity pc a (next (.inMemory k.code capacity) (on pc a.values host)) := by
  have values := a.values_eq
  generalize next (.inMemory k.code capacity) (on pc a.values host) = s at pushes ⊢
  rw [values] at pushes
  exact stands.goes_push here pushes counted stays (fun n same => absurd same (silent n)) site plain
    stands.sound.temps

theorem goes_stop (stands : k.Stands capacity pc a) (host : Memory)
    (here : k.code.HasInstr pc .stop) {depth' : Nat}
    (counted : (Instr.stop : Instr Label).depthAfter a.arity? a.temps.length = some depth') :
    k.Goes capacity pc a (next (.inMemory k.code capacity) (on pc a.values host)) := by
  obtain ⟨top, none, _⟩ := Instr.counted_stop counted
  have empty : a.values = [] := by
    cases a with
    | top temps => exact List.length_eq_zero_iff.mp none
    | called temps back args below => cases top
  refine Or.inl ⟨.stopped, _, Machine.next_stop a.values host here, Or.inl ⟨rfl, ?_⟩⟩
  rw [empty]
  rfl

theorem goes_ret (stands : k.Stands capacity pc a) {depth args : Nat} (host : Memory)
    (here : k.code.HasInstr pc (.ret depth args)) :
    k.Goes capacity pc a (next (.inMemory k.code capacity) (on pc a.values host)) := by
  obtain ⟨v, back, values, below, rfl, rfl, rfl, stepped⟩ := stands.next_ret host here
  obtain ⟨plain, _, site, sound⟩ := stands.sound
  have values' : (below.replace (v :: below.temps)).values = v :: below.values := by
    rw [below.values_replace, below.values_eq]
    rfl
  right
  refine ⟨_, back, below.replace (v :: below.temps), host, here, ?_, .ret rfl, ?_, ?_, ?_⟩
  · rw [values']
    exact stepped
  · rw [below.arity?_replace, below.temps_replace]
    exact site
  · apply sound.replace
    intro w member
    rcases List.mem_cons.mp member with rfl | member
    · exact plain w List.mem_cons_self
    · exact sound.temps w member
  · have low := stands.low
    simp only [Activations.values, List.length_append, List.length_cons, List.length_nil] at low
    rw [values', List.length_cons]
    omega

theorem goes_peek (stands : k.Stands capacity pc a) {depth depth' : Nat} (host : Memory)
    (here : k.code.HasInstr pc (.peek depth))
    (counted : (Instr.peek depth : Instr Nat).depthAfter a.arity? a.temps.length = some depth')
    (behind : k.Site (pc + Opcode.peek.size) a.arity? depth') :
    k.Goes capacity pc a (next (.inMemory k.code capacity) (on pc a.values host)) := by
  cases a with
  | top temps => cases counted
  | called temps back args below =>
    obtain ⟨n, arity, lower, upper, rfl⟩ := Instr.counted_peek counted
    cases Option.some.inj arity
    obtain ⟨v, found, member⟩ := Activations.getElem?_argument back below ⟨lower, upper⟩
    exact stands.goes_value here (Machine.next_peek _ host here found) counted nofun
      nofun behind (stands.sound.2.1 v member)

theorem goes_add (stands : k.Stands capacity pc a) {depth' : Nat} (host : Memory)
    (here : k.code.HasInstr pc .add)
    (counted : (Instr.add : Instr Nat).depthAfter a.arity? a.temps.length = some depth')
    (behind : k.Site (pc + Opcode.add.size) a.arity? depth') :
    k.Goes capacity pc a (next (.inMemory k.code capacity) (on pc a.values host)) := by
  have enough := Instr.counted_add counted
  obtain ⟨right, more, split, values⟩ := a.exists_cons (by omega)
  obtain ⟨inside, rfl⟩ := enough
  rw [split, List.length_cons] at inside
  obtain ⟨left, temps, rfl⟩ := List.exists_cons_of_length_pos (l := more) (by omega)
  obtain ⟨_, plains⟩ := stands.plain_of_cons split
  by_cases ints : left.kind = .int ∧ right.kind = .int
  · cases left with
    | native _ | address _ => cases ints.1
    | int x =>
      cases right with
      | native _ | address _ => cases ints.2
      | int y =>
        have depth : a.temps.length - 1 = temps.length + 1 := by
          rw [split]
          rfl
        rw [depth] at counted behind
        rw [values]
        exact stands.goes_push here (Machine.next_add_int _ host here) counted nofun
          nofun behind trivial fun v member => plains v (List.mem_cons_of_mem _ member)
  · rw [values]
    exact goes_fault (Machine.next_add_other _ host here ints) trivial

theorem goes_pop (stands : k.Stands capacity pc a) {depth' : Nat} (host : Memory)
    (here : k.code.HasInstr pc .pop)
    (counted : (Instr.pop : Instr Nat).depthAfter a.arity? a.temps.length = some depth')
    (behind : k.Site (pc + Opcode.pop.size) a.arity? depth') :
    k.Goes capacity pc a (next (.inMemory k.code capacity) (on pc a.values host)) := by
  obtain ⟨enough, same⟩ := Instr.counted_pop counted
  obtain ⟨v, temps, split, values⟩ := a.exists_cons enough
  have depth : depth' = temps.length := by
    rw [same, split]
    rfl
  subst depth
  have fewer : temps.length ≤ a.temps.length := by
    rw [split]
    exact Nat.le_succ _
  rw [values]
  exact stands.goes_within _ here (Machine.next_pop _ host here) counted nofun nofun behind
    (stands.plain_of_cons split).2 (stands.low_of_le fewer)

theorem goes_jumpFalse (stands : k.Stands capacity pc a) {target depth' : Nat} (host : Memory)
    (here : k.code.HasInstr pc (.jumpFalse target))
    (counted : (Instr.jumpFalse target : Instr Nat).depthAfter a.arity? a.temps.length = some depth')
    (behind : k.Site (pc + Opcode.jumpFalse.size) a.arity? depth')
    (there : k.Site target a.arity? depth') :
    k.Goes capacity pc a (next (.inMemory k.code capacity) (on pc a.values host)) := by
  obtain ⟨one, rfl⟩ := Instr.counted_jumpFalse counted
  obtain ⟨v, temps, split, values⟩ := a.exists_cons (Nat.le_of_eq one.symm)
  have bottom : temps = [] := by
    rw [split] at one
    exact List.length_eq_zero_iff.mp (Nat.succ.inj one)
  subst bottom
  have site : k.Site (if v.truthy then pc + Opcode.jumpFalse.size else target) a.arity? 0 := by
    split
    · exact behind
    · exact there
  rw [values]
  exact stands.goes_within _ here (Machine.next_jumpFalse _ host here) counted nofun nofun site
    (by simp) (stands.low_of_le (Nat.zero_le _))

theorem goes_jump (stands : k.Stands capacity pc a) {target depth' : Nat} (host : Memory)
    (here : k.code.HasInstr pc (.jump target))
    (counted : (Instr.jump target : Instr Nat).depthAfter a.arity? a.temps.length = some depth')
    (there : k.Site target a.arity? depth') :
    k.Goes capacity pc a (next (.inMemory k.code capacity) (on pc a.values host)) := by
  obtain ⟨none, rfl⟩ := Instr.counted_jump counted
  have values : a.values = [] ++ a.rest := by
    rw [a.values_eq, List.length_eq_zero_iff.mp none]
  rw [values]
  exact stands.goes_within _ here (Machine.next_jump _ host here) counted nofun nofun there
    (by simp) (stands.low_of_le (Nat.zero_le _))

theorem goes (sound : k.Sound) (stands : k.Stands capacity pc a) (host : Memory) :
    k.Goes capacity pc a (next (.inMemory k.code capacity) (on pc a.values host)) := by
  obtain ⟨i, depth', here, counted, onward⟩ := stands.site.cases
  have counted' := counted
  rw [← i.depthAfter_map k.addr] at counted'
  rcases onward with leaves | ⟨⟨labels, refers⟩, behind, jumps⟩
  · cases arity : a.arity? with
    | none =>
      rw [arity] at leaves
      subst leaves
      exact stands.goes_stop host here counted
    | some n =>
      rw [arity] at leaves
      subst leaves
      exact stands.goes_ret host here
  · cases i with
    | pushFunc l =>
      cases Option.some.inj counted
      exact stands.goes_value here (Machine.next_pushFunc _ host here) rfl nofun
        nofun behind (sound.functions l refers)
    | pushNative index =>
      cases Option.some.inj counted
      obtain ⟨n, bound, builtin⟩ := sound.natives index refers
      exact stands.goes_value here (Machine.next_pushNative _ host here bound) rfl
        nofun nofun behind builtin
    | pushInt z =>
      cases Option.some.inj counted
      exact stands.goes_value here (Machine.next_pushInt _ host here) rfl nofun
        nofun behind trivial
    | peek depth => exact stands.goes_peek host here counted' behind
    | add => exact stands.goes_add host here counted' behind
    | call n => exact stands.goes_call host here counted' behind
    | ret depth args => exact stands.goes_ret host here
    | stop => exact refers.elim
    | pop => exact stands.goes_pop host here counted' behind
    | jumpFalse l => exact stands.goes_jumpFalse host here counted' behind (jumps l rfl)
    | jump l => exact stands.goes_jump host here counted' (jumps l rfl)

end Stands

end Plan

end Tally

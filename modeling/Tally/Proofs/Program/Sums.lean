import Tally.Proofs.Grammar.Limits
import Tally.Proofs.Program.Accepted
import Tally.Proofs.Program.Expressions
import Mathlib.Algebra.GroupWithZero.Nat

namespace Tally

open Machine (on Reaches)

/-- A sum of literals that have these values, from left to right. -/
inductive Expr.SumOf : Expr → List Nat → Prop where
  | literal (digits : String) (at_ : Position) :
    SumOf (.int digits at_) [literalValue digits]
  | add {left right : Expr} {zs ws : List Nat} (plus : Position) (first : left.SumOf zs)
    (second : right.SumOf ws) : SumOf (.add left plus right) (zs ++ ws)

def Program.calling (q : Prototype) (name : Ident) (paren : Position) (e : Expr) : Program :=
  ⟨[.prototype q, .stmt (.eval (.call (.ident name) paren [e]))]⟩

/-- A program that binds a name to `print_int` and prints a sum of these literals. -/
inductive Program.PrintsSum : Program → List Nat → Prop where
  | mk {q : Prototype} {name : Ident} {e : Expr} {zs : List Nat} (paren : Position)
    (primitive : q.primitive = "print_int") (one : q.header.params.length = 1)
    (named : name.text = q.header.name.text) (sum : e.SumOf zs) :
    PrintsSum (.calling q name paren e) zs

def Expr.sumOf? : Expr → Option (List Nat)
  | .int digits _ => some [literalValue digits]
  | .add left _ right => do return (← left.sumOf?) ++ (← right.sumOf?)
  | .ident _ => none
  | .call .. => none

theorem Expr.sumOf_of_sumOf? {e : Expr} {zs : List Nat} (found : e.sumOf? = some zs) :
    e.SumOf zs := by
  fun_induction sumOf? e generalizing zs with
  | case1 digits at_ =>
    cases found
    exact .literal digits at_
  | case2 left plus right ihLeft ihRight =>
    obtain ⟨ls, first, rest⟩ := Option.bind_eq_some_iff.mp found
    obtain ⟨rs, second, both⟩ := Option.bind_eq_some_iff.mp rest
    cases both
    exact .add plus (ihLeft first) (ihRight second)
  | case3 | case4 => cases found

def Program.printedSum? : Program → Option (List Nat)
  | ⟨[.prototype q, .stmt (.eval (.call (.ident name) _ [e]))]⟩ =>
    if q.primitive = "print_int" ∧ q.header.params.length = 1 ∧ name.text = q.header.name.text then
      e.sumOf?
    else none
  | _ => none

theorem Program.printsSum_of_printedSum? {p : Program} {zs : List Nat}
    (found : p.printedSum? = some zs) : p.PrintsSum zs := by
  unfold printedSum? at found
  split at found
  · rename_i q name paren e
    split at found
    · rename_i right
      exact .mk paren right.1 right.2.1 right.2.2 (Expr.sumOf_of_sumOf? found)
    · cases found
  · cases found

theorem Machine.Step.Pushes.next_of_room {σ : Type} {setup : Setup σ} {origin pc : Nat} {v : Value}
    {vs : List Value} {host : σ} {s : Machine.Step σ} (pushes : s.Pushes setup origin pc v vs host)
    (room : vs.length < setup.capacity) : s = .next (on pc (v :: vs) host) := by
  rcases pushes with ⟨_, stepped⟩ | ⟨full, _⟩
  · exact stepped
  · omega

namespace Expr.SumOf

variable {e : Expr} {zs : List Nat} {σ : Type} {setup : Setup σ} {addr : Label → Nat}
  {scope : Scope}

theorem violations (sum : e.SumOf zs) (around : Surroundings) : e.violations around = [] := by
  induction sum with
  | literal => rfl
  | add plus first second ihFirst ihSecond =>
    rw [Expr.violations, ihFirst, ihSecond]
    rfl

theorem no_counts (sum : e.SumOf zs) (depth : Nat) {i : Instr Label} {n : Nat}
    (member : .instr i ∈ e.code scope depth) : .count n ∉ i.operands := by
  induction sum generalizing depth with
  | literal digits =>
    cases List.mem_singleton.mp member
    simp [Instr.operands]
  | add plus first second ihFirst ihSecond =>
    simp only [code, List.mem_append, List.mem_singleton] at member
    rcases member with (member | member) | same
    · exact ihFirst depth member
    · exact ihSecond (depth + 1) member
    · cases same
      simp [Instr.operands]

/-- The machine comes to the sum of the literals. Where the additions wrap around depends on the
tree, but what they come to does not. -/
theorem reaches (sum : e.SumOf zs) {depth pc : Nat} (vs : List Value) (host : σ)
    (holds : setup.code.Holds addr pc (e.code scope depth))
    (room : vs.length + e.height ≤ setup.capacity) :
    ∃ n, Reaches setup n (on pc vs host)
      (on (pc + sizeOfLines (e.code scope depth)) (.ofInt zs.sum :: vs) host) := by
  induction sum generalizing depth pc vs with
  | literal digits at_ =>
    have free : vs.length < setup.capacity := room
    have value : ([literalValue digits] : List Nat).sum = literalValue digits := Nat.add_zero _
    have pushed := (Machine.next_pushInt vs host holds.1).next_of_room free
    rw [value]
    exact ⟨1, .single pushed⟩
  | @add left right zs ws plus first second ihFirst ihSecond =>
    rw [height] at room
    rw [code] at holds ⊢
    obtain ⟨m, path⟩ := ihFirst vs holds.left.left (by omega)
    obtain ⟨n, path'⟩ := ihSecond (.ofInt zs.sum :: vs) holds.left.right
      (by rw [List.length_cons]; omega)
    have last := holds.right.1
    rw [sizeOfLines_append, ← Nat.add_assoc] at last
    have adds := Machine.next_add_int (a := .ofInt zs.sum) (b := .ofInt ws.sum) vs host last
    rw [← Int64.ofInt_add, ← Int.natCast_add, ← List.sum_append] at adds
    have added := adds.next_of_room (by omega)
    rw [sizeOfLines_append, sizeOfLines_append, ← Nat.add_assoc, ← Nat.add_assoc]
    exact ⟨m + n + 1, (path.trans path').tail added⟩

end Expr.SumOf

namespace Program

section

variable {q : Prototype} {name : Ident} {paren : Position} {e : Expr} {zs : List Nat}
  {d : Declarations}

theorem kept_calling (one : q.header.params.length = 1) (named : name.text = q.header.name.text)
    (sum : e.SumOf zs) : (calling q name paren e).violations = [] := by
  obtain ⟨param, params⟩ := List.length_eq_one_iff.mp one
  have single : q.header.repeatedParams = [] := by
    rw [Header.repeatedParams, params]
    rfl
  simp [calling, violations, violationsAfter, Globals.repeated, Globals.declareAll,
    Globals.declare, Globals.declares, Item.header?, Item.signature?, Item.violations,
    Stmt.violations, Expr.violations, Expr.violationsOfAll, Surroundings.knows,
    Surroundings.arityViolations, Surroundings.declared?, single, named, one, sum.violations]

theorem declared?_calling (named : name.text = q.header.name.text) :
    (calling q name paren e).declared? name.text = some (.native q) := by
  simp [calling, declared?, declaration?, Item.name?, Item.header?, named]

theorem height_lt_of_calling (low : ∀ e' ∈ (calling q name paren e).subterms,
    e'.height ≤ nestingLimit) : e.height < nestingLimit := by
  have whole := low (.call (.ident name) paren [e])
    (mem_subterms (List.mem_cons_of_mem _ List.mem_cons_self) List.mem_cons_self List.mem_cons_self)
  simp only [Expr.height, Expr.greatestHeight] at whole
  omega

theorem resolve_calling (of : d.Of (calling q name paren e)) {b : Binding}
    (bound : d.scope.resolve name.text = .ok b) : ∃ own, b = .native 0 own := by
  have within := of.within_top _ b bound
  rw [of.size_pending, of.size_natives] at within
  cases b with
  | function l => exact absurd within (Nat.not_lt_zero l)
  | native i own =>
    obtain rfl : i = 0 := Nat.lt_one_iff.mp within
    exact ⟨own, rfl⟩
  | argument i => exact absurd bound (of.not_argument _ i)

theorem labelsOf_calling (of : d.Of (calling q name paren e)) :
    labelsOf ((calling q name paren e).assembled d).lines.toList = [] := by
  have none : ((calling q name paren e).assembled d).labels = 0 := by
    rw [assembled, of.size_pending]
    rfl
  have perm := labelsOf_assembled of
  rw [none] at perm
  exact perm.eq_nil

theorem lines_calling (of : d.Of (calling q name paren e)) {b : Binding}
    (bound : d.scope.resolve name.text = .ok b) :
    ((calling q name paren e).assembled d).lines.toList = e.code d.scope 0 ++
      [.instr (b.instr 1), .instr (.call 1), .instr .pop, .instr .stop] := by
  have pending : d.pending.toList = [] := of.pending
  simp [assembled, segments, linesOf, topSegment, pending, Definition.segments, calling, statements,
    Stmt.codeAll, Stmt.code, Expr.code, Expr.codeArgs, bound]

theorem exists_binding_calling (of : d.Of (calling q name paren e))
    (named : name.text = q.header.name.text) : ∃ b, d.scope.resolve name.text = .ok b := by
  refine of.covers_top false name.text ?_
  simp [calling, Surroundings.knows, Globals.declareAll, Globals.declare, Globals.declares,
    Item.header?, Item.signature?, named]

/-- There is code, however long the sum is: the assembly has no addresses, and its counts are those
of the one native and the one argument. -/
theorem exists_linked_calling (primitive : q.primitive = "print_int")
    (one : q.header.params.length = 1) (named : name.text = q.header.name.text) (sum : e.SumOf zs)
    (fit : (calling q name paren e).LiteralsFit) (filename : String) :
    ∃ d addr c, d.Of (calling q name paren e) ∧
      (calling q name paren e).compile (Registry.builtins Memory.channel).knows filename = .ok c ∧
      ((calling q name paren e).assembled d).LinkedTo addr c := by
  have kept : (calling q name paren e).violations = [] := kept_calling one named sum
  have knows : ∀ q' ∈ (calling q name paren e).prototypes,
      (Registry.builtins Memory.channel).knows q'.primitive = .ok true := by
    intro q' member
    cases List.mem_singleton.mp member
    rw [primitive]
    rfl
  obtain ⟨d, of, assembly⟩ := exists_assembly kept knows
  obtain ⟨b, bound⟩ := exists_binding_calling of named
  obtain ⟨own, rfl⟩ := resolve_calling of bound
  have counts : ∀ i (n : Nat), .instr i ∈ ((calling q name paren e).assembled d).lines.toList →
      .count n ∈ i.operands → n ≤ 1 := by
    intro i n member count
    rw [lines_calling of bound, List.mem_append] at member
    rcases member with inside | member
    · exact absurd count (sum.no_counts 0 inside)
    · simp only [List.mem_cons, List.not_mem_nil, or_false, Line.instr.injEq] at member
      rcases member with rfl | rfl | rfl | rfl <;> simp_all [Binding.instr, Instr.operands]
  have none := labelsOf_calling of
  refine ⟨d, ?_⟩
  rcases Assembly.link_cases_of (wellLabelled of kept fit) filename
    (fun some => absurd none some) counts with ⟨v, _, large, small⟩ | ⟨addr, c, linked, holds⟩
  · exact absurd (Nat.le_trans large small) (by decide)
  · refine ⟨addr, c, of, ?_, holds⟩
    unfold compile
    rw [assembly]
    simp only [linked]

theorem ends_calling (primitive : q.primitive = "print_int")
    (one : q.header.params.length = 1) (named : name.text = q.header.name.text) (sum : e.SumOf zs)
    (low : e.height < nestingLimit) (of : d.Of (calling q name paren e)) {addr : Label → Nat}
    {c : Code} (linked : ((calling q name paren e).assembled d).LinkedTo addr c) (host : Memory) :
    ∃ pc, Machine.Ends (.inMemory c defaultCapacity) (.start host) .stopped
      (on pc [] (host.write ((zs.sum : Int).bmod (2 ^ 64)))) := by
  obtain ⟨b, bound⟩ := exists_binding_calling of named
  have holds := linked.holds
  rw [lines_calling of bound] at holds
  obtain ⟨bind, call, pop, stop, _⟩ := holds.right
  let setup : Setup Memory := .inMemory c defaultCapacity
  let total : Int64 := .ofInt zs.sum
  have large : nestingLimit < defaultCapacity := by decide
  have room : e.height ≤ setup.capacity := Nat.le_of_lt (Nat.lt_trans low large)
  have alone : ([] : List Value).length < setup.capacity := Nat.zero_lt_of_lt large
  have above : [Value.int total].length < setup.capacity :=
    Nat.lt_trans (show 1 < nestingLimit by decide) large
  obtain ⟨n, added⟩ : ∃ n, Reaches setup n (.start host) (on _ [.int total] host) :=
    sum.reaches [] host holds.left (by rwa [List.length_nil, Nat.zero_add])
  obtain ⟨v, w, declared, shows, gives⟩ := of.shown linked.natives bound ([] : List Value)
  cases declared.symm.trans (declared?_calling named)
  cases shows
  have pushes : (Machine.next setup (on _ ([.int total] ++ []) host)).Pushes setup _ _
      (.native q.native) ([.int total] ++ []) host := b.next host gives bind
  have loaded := pushes.next_of_room above
  have arity : q.native.arity = (1 : Nat) := congrArg Nat.cast one
  have prints : (Machine.next setup (on _ [.native q.native, .int total] host)).Pushes setup _ _
      (.int total) [] (host.write total.toInt) :=
    Machine.next_call_print [] host call arity primitive
  have printed := prints.next_of_room alone
  have popped : Machine.next setup (on _ [.int total] (host.write total.toInt)) = _ :=
    Machine.next_pop [] _ pop
  have wrapped : total.toInt = (zs.sum : Int).bmod (2 ^ 64) := Int64.toInt_ofInt
  rw [← wrapped]
  exact ⟨_, _, _, ((added.tail loaded).tail printed).tail popped, Machine.next_stop [] _ stop⟩

end

/-- Over memory and with the usual room, the text is accepted, and its runs stop with nothing on
the stack and these numbers written, whatever they could read, if they may take the steps that
this needs. -/
def Writes (text : String) (numbers : List Int) : Prop :=
  ∀ (filename : String) (inputs : List Int), ∃ c steps host,
    compileText (Registry.builtins Memory.channel).knows true filename text = .ok c ∧
    host.output = numbers ∧
    ∀ {τ : Type} (observe : τ → Event → τ) (limit : Nat), steps ≤ limit → ∀ seen, ∃ seen',
      runText (.builtins Memory.channel) defaultCapacity limit observe seen (.ofInputs inputs)
        filename text = ⟨.ok (c, 0), seen', host⟩

variable {text : String} {p : Program} {zs : List Nat}

theorem writes_of_printsSum (read : parse text = .ok p) (prints : p.PrintsSum zs) :
    Writes text [(zs.sum : Int).bmod (2 ^ 64)] := by
  intro filename inputs
  cases prints with
  | @mk q name e zs paren primitive one named sum =>
    have fit := literalsFit_of_parse read
    have low := height_lt_of_calling (limits_exact.1 _ read).1
    obtain ⟨d, addr, c, of, compiled, linked⟩ :=
      exists_linked_calling primitive one named sum fit filename
    have accepted := compileText_eq_ok_iff.mpr ⟨_, read, kept_calling one named sum, compiled⟩
    obtain ⟨pc, ends⟩ := ends_calling primitive one named sum low of linked (.ofInputs inputs)
    obtain ⟨steps, runs⟩ := ends.exists_steps
    refine ⟨c, steps, (Memory.ofInputs inputs).write _, accepted, rfl, ?_⟩
    intro τ observe limit long seen
    obtain ⟨seen', ran⟩ := runs observe limit long seen
    refine ⟨seen', ?_⟩
    have ran' : Machine.run ⟨c, .builtins Memory.channel, defaultCapacity⟩ observe limit seen
      (.start (.ofInputs inputs)) = _ := ran
    unfold runText
    rw [accepted]
    dsimp only
    rw [ran']
    rfl

/-- A sum of literals is printed exactly, modulo `2 ^ 64`, whatever the shape of its tree is: the
program is accepted, and its run writes this one number and stops. So every text that is read as a
sum of the same literals, in any order and with any grouping, writes the same. -/
theorem sums_exact (read : parse text = .ok p) (prints : p.PrintsSum zs) :
    Writes text [(zs.sum : Int).bmod (2 ^ 64)] ∧
    ∀ text' p' zs', parse text' = .ok p' → p'.PrintsSum zs' → zs'.Perm zs →
      Writes text' [(zs.sum : Int).bmod (2 ^ 64)] := by
  refine ⟨writes_of_printsSum read prints, ?_⟩
  intro text' p' zs' read' prints' same
  have written := writes_of_printsSum read' prints'
  rwa [same.sum_nat] at written

theorem sums_exact_sample :
    Writes "func print(x: int): int = \"print_int\"\nprint(9223372036854775807 + 1 + 2)"
      [-9223372036854775806] ∧
    Writes "func print(x: int): int = \"print_int\"\nprint(2 + (1 + 9223372036854775807))"
      [-9223372036854775806] := by
  obtain ⟨p, read, early⟩ : ∃ p, parse
      "func print(x: int): int = \"print_int\"\nprint(9223372036854775807 + 1 + 2)" = .ok p ∧
        p.printedSum? = some [9223372036854775807, 1, 2] :=
    exists_of_evaluation (by decide +kernel)
  obtain ⟨p', read', late⟩ : ∃ p, parse
      "func print(x: int): int = \"print_int\"\nprint(2 + (1 + 9223372036854775807))" = .ok p ∧
        p.printedSum? = some [2, 1, 9223372036854775807] :=
    exists_of_evaluation (by decide +kernel)
  obtain ⟨writes, others⟩ := sums_exact read (printsSum_of_printedSum? early)
  exact ⟨writes, others _ _ _ read' (printsSum_of_printedSum? late) (by decide)⟩

end Program

end Tally

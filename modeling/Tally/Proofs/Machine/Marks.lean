import Tally.Proofs.Machine.Discipline

namespace Tally

/-- The marks after an instruction, from those before it and the value on top. A call of a function
marks the place to return to, and copies keep their marks. -/
def Instr.mark (top : Option Value) (marks : List Bool) : Instr Nat → List Bool
  | pushFunc _ | pushNative _ | pushInt _ => false :: marks
  | peek depth => marks.getD depth false :: marks
  | pop | jumpFalse _ => marks.drop 1
  | add => false :: marks.drop 2
  | call args =>
    match top with
    | some (.address _) => true :: marks.drop 1
    | _ => false :: marks.drop (args + 1)
  | ret depth args => marks.getD 0 false :: marks.drop (1 + depth + 1 + args)
  | jump _ | stop => marks

def Code.mark (c : Code) (marks : List Bool) (e : Event) : List Bool :=
  match c.operandsAt (e.pc + 1) e.op with
  | .ok i => i.mark e.top marks
  | .error _ => marks

/-- An instruction returns to a marked value, and every other value that it reads is unmarked. -/
def Instr.Respects (marks : List Bool) : Instr Nat → Prop
  | peek depth => marks[depth]? = some false
  | pop | jumpFalse _ => marks[0]? = some false
  | add => marks[0]? = some false ∧ marks[1]? = some false
  | call args => ∀ j, j ≤ args → marks[j]? = some false
  | ret depth _ => marks[0]? = some false ∧ marks[depth + 1]? = some true
  | _ => True

namespace Activations

def marks : Activations → List Bool
  | top temps => List.replicate temps.length false
  | called temps _ args below =>
    List.replicate temps.length false ++ true :: (List.replicate args.length false ++ below.marks)

def restMarks : Activations → List Bool
  | top _ => []
  | called _ _ args below => true :: (List.replicate args.length false ++ below.marks)

theorem marks_eq (a : Activations) :
    a.marks = List.replicate a.temps.length false ++ a.restMarks := by
  cases a with
  | top temps => exact (List.append_nil _).symm
  | called temps back args below => rfl

theorem marks_replace (a : Activations) (temps : List Value) :
    (a.replace temps).marks = List.replicate temps.length false ++ a.restMarks := by
  cases a with
  | top _ => exact (List.append_nil _).symm
  | called _ back args below => rfl

theorem length_marks (a : Activations) : a.marks.length = a.values.length := by
  induction a with
  | top temps => exact List.length_replicate
  | called temps back args below ih => simp [marks, values, ih]

theorem getElem?_marks {a : Activations} {j : Nat} (inside : j < a.temps.length) :
    a.marks[j]? = some false := by
  rw [a.marks_eq, List.getElem?_append_left (by simpa using inside)]
  simp [inside]

theorem drop_marks (a : Activations) {n : Nat} (enough : n ≤ a.temps.length) :
    a.marks.drop n = List.replicate (a.temps.length - n) false ++ a.restMarks := by
  rw [a.marks_eq, List.drop_append_of_le_length (by simpa using enough), List.drop_replicate]

theorem getElem?_marks_argument {temps args : List Value} {back depth : Nat} {below : Activations}
    (range : temps.length + 1 ≤ depth ∧ depth ≤ temps.length + args.length) :
    (called temps back args below).marks[depth]? = some false := by
  obtain ⟨j, rfl⟩ := Nat.exists_eq_add_of_le range.1
  have inside : j < args.length := by omega
  have past : temps.length + 1 + j - temps.length = j + 1 := by omega
  rw [marks, List.getElem?_append_right (by simp; omega), List.length_replicate, past,
    List.getElem?_cons_succ, List.getElem?_append_left (by simpa using inside)]
  simp [inside]

end Activations

theorem Instr.respects_of_counted {a : Activations} {i : Instr Nat} {depth' : Nat}
    (counted : i.depthAfter a.arity? a.temps.length = some depth') : i.Respects a.marks := by
  cases i with
  | pushFunc _ | pushNative _ | pushInt _ | jump _ | stop => trivial
  | peek depth =>
    obtain ⟨n, arity, lower, upper, _⟩ := counted_peek counted
    cases a with
    | top temps => cases arity
    | called temps back args below =>
      cases Option.some.inj arity
      exact Activations.getElem?_marks_argument ⟨lower, upper⟩
  | pop =>
    have enough := (counted_pop counted).1
    exact Activations.getElem?_marks enough
  | jumpFalse target =>
    have one := (counted_jumpFalse counted).1
    exact Activations.getElem?_marks (by omega)
  | add =>
    have enough := (counted_add counted).1
    exact ⟨Activations.getElem?_marks (by omega), Activations.getElem?_marks (by omega)⟩
  | call n =>
    have enough := (counted_call counted).1
    intro j small
    exact Activations.getElem?_marks (by omega)
  | ret depth args =>
    obtain ⟨arity, rfl, one, _⟩ := counted_ret counted
    refine ⟨Activations.getElem?_marks (by omega), ?_⟩
    cases a with
    | top temps => cases arity
    | called temps back values below =>
      obtain ⟨v, rfl⟩ := List.length_eq_one_iff.mp one
      rfl

namespace Activations

variable {a a' : Activations} {pc pc' : Nat} {i : Instr Nat}

theorem mark_call {temps args : List Value} {entry : Number}
    (split : a.temps = .address entry :: (args ++ temps)) :
    (Instr.call args.length).mark a.values.head? a.marks =
      true :: (List.replicate args.length false ++ (a.replace temps).marks) := by
  have head : a.values.head? = some (.address entry) := by
    rw [a.values_eq, split]
    rfl
  have count : a.temps.length - 1 = args.length + temps.length := by
    rw [split, List.length_cons, List.length_append]
    omega
  have dropped := a.drop_marks (n := 1) (by rw [split]; simp)
  rw [count, ← List.replicate_append_replicate, List.append_assoc] at dropped
  rw [head, a.marks_replace, ← dropped]
  rfl

theorem mark_ret (v : Value) (back : Nat) (args : List Value) (below : Activations) :
    (Instr.ret 0 args.length).mark (some v) (called [v] back args below).marks =
      (below.replace (v :: below.temps)).marks := by
  have below' : (below.replace (v :: below.temps)).marks = false :: below.marks := by
    rw [below.marks_replace, below.marks_eq]
    rfl
  have dropped : (List.replicate args.length false ++ below.marks).drop args.length =
      below.marks := by
    rw [List.drop_append_of_le_length (by simp), List.drop_replicate]
    simp
  have past : 1 + 0 + 1 + args.length = args.length + 2 := by omega
  rw [below']
  change false :: List.drop (1 + 0 + 1 + args.length)
    (false :: true :: (List.replicate args.length false ++ below.marks)) = _
  rw [past, List.drop_succ_cons, List.drop_succ_cons, dropped]

theorem mark_within {temps : List Value}
    (counted : i.depthAfter a.arity? a.temps.length = some temps.length)
    (stays : ∀ depth args, i ≠ .ret depth args)
    (enters : ∀ n, i = .call n → ∀ v, a.temps.head? = some v → v.kind ≠ .address) :
    i.mark a.values.head? a.marks = (a.replace temps).marks := by
  rw [a.marks_replace]
  cases i with
  | pushFunc _ | pushNative _ | pushInt _ =>
    rw [← Option.some.inj counted, List.replicate_succ, a.marks_eq]
    rfl
  | peek depth =>
    have unmarked : a.marks[depth]? = some false := Instr.respects_of_counted counted
    obtain ⟨_, _, _, _, same⟩ := Instr.counted_peek counted
    rw [same, Instr.mark, List.getD_eq_getElem?_getD, unmarked, List.replicate_succ, a.marks_eq]
    rfl
  | pop =>
    obtain ⟨enough, same⟩ := Instr.counted_pop counted
    rw [same]
    exact a.drop_marks enough
  | jumpFalse target =>
    obtain ⟨one, same⟩ := Instr.counted_jumpFalse counted
    have dropped := a.drop_marks (n := 1) (by omega)
    rw [one] at dropped
    rw [same]
    exact dropped
  | add =>
    obtain ⟨enough, same⟩ := Instr.counted_add counted
    have count : a.temps.length - 1 = a.temps.length - 2 + 1 := by omega
    rw [same, count, Instr.mark, a.drop_marks enough, List.replicate_succ]
    rfl
  | call n =>
    obtain ⟨enough, same⟩ := Instr.counted_call counted
    have count : a.temps.length - n = a.temps.length - (n + 1) + 1 := by omega
    obtain ⟨v, more, split, values⟩ := a.exists_cons (by omega)
    have other : v.kind ≠ .address := enters n rfl v (by rw [split]; rfl)
    have marked : (Instr.call n).mark a.values.head? a.marks = false :: a.marks.drop (n + 1) := by
      rw [values]
      cases v with
      | address _ => exact absurd rfl other
      | int _ | native _ => rfl
    rw [marked, same, count, a.drop_marks enough, List.replicate_succ]
    rfl
  | ret depth args => exact absurd rfl (stays depth args)
  | jump target =>
    obtain ⟨none, same⟩ := Instr.counted_jump counted
    rw [same, ← none]
    exact a.marks_eq
  | stop =>
    obtain ⟨_, none, same⟩ := Instr.counted_stop counted
    rw [same, ← none]
    exact a.marks_eq

theorem Moves.mark (moves : a.Moves pc i pc' a') :
    i.mark a.values.head? a.marks = a'.marks := by
  cases moves with
  | call called split =>
    rw [called]
    exact mark_call split
  | ret returned =>
    rw [returned]
    exact mark_ret _ _ _ _
  | within counted stays enters => exact mark_within counted stays enters

end Activations

end Tally

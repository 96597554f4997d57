import Tally.Proofs.Assembly.Layout
import Tally.Proofs.Program.Emission
import Tally.Proofs.Program.Literals
import Mathlib.Data.List.Perm.Basic

namespace Tally

theorem labelsOf_append (ls ms : List Line) : labelsOf (ls ++ ms) = labelsOf ls ++ labelsOf ms :=
  List.filterMap_append

theorem labelsOf_subset_append (ls ms ns : List Line) : labelsOf ms ⊆ labelsOf (ls ++ ms ++ ns) := by
  intro l member
  rw [labelsOf_append, labelsOf_append]
  simp [member]

mutual

theorem Expr.labelsOf_code (scope : Scope) :
    ∀ (e : Expr) (depth : Nat), labelsOf (e.code scope depth) = []
  | .int .., _ => rfl
  | .ident name, depth => by
    rw [Expr.code]
    split <;> rfl
  | .add left _ right, depth => by
    rw [Expr.code, labelsOf_append, labelsOf_append, Expr.labelsOf_code scope left,
      Expr.labelsOf_code scope right]
    rfl
  | .call callee _ args, depth => by
    rw [Expr.code, labelsOf_append, labelsOf_append, Expr.labelsOf_codeArgs scope args,
      Expr.labelsOf_code scope callee]
    rfl

theorem Expr.labelsOf_codeArgs (scope : Scope) :
    ∀ (es : List Expr) (depth : Nat), labelsOf (Expr.codeArgs scope depth es) = []
  | [], _ => rfl
  | e :: es, depth => by
    rw [Expr.codeArgs, labelsOf_append, Expr.labelsOf_codeArgs scope es,
      Expr.labelsOf_code scope e]
    rfl

end

mutual

theorem Stmt.labelsOf_code (scope : Scope) :
    ∀ (s : Stmt) (labels : Nat),
      (labelsOf (s.code scope labels)).Perm (List.range' labels s.labelCount)
  | .block _ body, labels => Stmt.labelsOf_codeAll scope.enterBlock body labels
  | .loop word condition body, labels => by
    have inner := Stmt.labelsOf_code scope body (labels + 2)
    have here : labelsOf ((Stmt.loop word condition body).code scope labels) =
        labels :: (labelsOf (body.code scope (labels + 2)) ++ [labels + 1]) := by
      rw [Stmt.code, labelsOf_append, labelsOf_append, labelsOf_append, labelsOf_append,
        Expr.labelsOf_code]
      rfl
    rw [here, Stmt.labelCount, List.range'_succ, List.range'_succ]
    apply List.Perm.cons
    exact (List.perm_append_singleton _ _).trans (inner.cons _)
  | .ret _ value, labels => by
    rw [Stmt.code, labelsOf_append, Expr.labelsOf_code]
    exact List.Perm.refl _
  | .eval e, labels => by
    rw [Stmt.code, labelsOf_append, Expr.labelsOf_code]
    exact List.Perm.refl _

theorem Stmt.labelsOf_codeAll (scope : Scope) :
    ∀ (ss : List Stmt) (labels : Nat),
      (labelsOf (Stmt.codeAll scope labels ss)).Perm (List.range' labels (Stmt.labelCountAll ss))
  | [], _ => List.Perm.refl _
  | s :: ss, labels => by
    rw [Stmt.codeAll, labelsOf_append, Stmt.labelCountAll, ← List.range'_append_1]
    exact (Stmt.labelsOf_code scope s labels).append (Stmt.labelsOf_codeAll scope ss _)

end

def Binding.Within (functions natives : Nat) : Binding → Prop
  | function entry => entry < functions
  | native index _ => index < natives
  | argument _ => True

/-- An instruction of a body names functions and natives that there are, and labels of the body. -/
def Instr.Refers (functions natives : Nat) (labels : List Label) : Instr Label → Prop
  | pushFunc entry => entry < functions
  | pushNative index => index < natives
  | pushInt z => z.bmod (LittleEndian.modulus 8) = z
  | jumpFalse l | jump l => l ∈ labels
  | stop => False
  | _ => True

theorem Instr.Refers.mono {functions natives : Nat} {labels more : List Label} {i : Instr Label}
    (refers : i.Refers functions natives labels) (subset : labels ⊆ more) :
    i.Refers functions natives more := by
  cases i with
  | jump l | jumpFalse l => exact subset refers
  | _ => exact refers

theorem bmod_of_le_maxInt {n : Nat} (small : n ≤ maxInt) : (n : Int).bmod (LittleEndian.modulus 8) = n := by
  have modulus : LittleEndian.modulus 8 = 18446744073709551616 := rfl
  unfold maxInt at small
  rw [modulus]
  apply Int.bmod_eq_of_le <;> omega

section

variable {functions natives : Nat} {scope : Scope}

theorem refers_append {ls ms : List Line} {labels : List Label}
    (first : ∀ i, .instr i ∈ ls → i.Refers functions natives labels)
    (rest : ∀ i, .instr i ∈ ms → i.Refers functions natives labels) :
    ∀ i, .instr i ∈ ls ++ ms → i.Refers functions natives labels := by
  intro i member
  rcases List.mem_append.mp member with member | member
  · exact first i member
  · exact rest i member

theorem refers_singleton {i : Instr Label} {labels : List Label}
    (here : i.Refers functions natives labels) :
    ∀ j, .instr j ∈ [Line.instr i] → j.Refers functions natives labels := by
  intro j member
  cases List.mem_singleton.mp member
  exact here

mutual

theorem Expr.refers_code
    (within : ∀ name b, scope.resolve name = .ok b → b.Within functions natives) :
    ∀ (e : Expr) (depth : Nat), e.LiteralsFit →
      ∀ i, .instr i ∈ e.code scope depth → i.Refers functions natives []
  | .int digits _, depth, fit => refers_singleton (bmod_of_le_maxInt fit)
  | .ident name, depth, _ => by
    rw [Expr.code]
    split
    · rename_i b bound
      apply refers_singleton
      have known := within name.text b bound
      cases b with
      | function entry => exact known
      | native index own => exact known
      | argument index => trivial
    · intro i member
      cases member
  | .add left _ right, depth, fit =>
    refers_append (refers_append (Expr.refers_code within left depth fit.1)
      (Expr.refers_code within right (depth + 1) fit.2)) (refers_singleton trivial)
  | .call callee _ args, depth, fit =>
    refers_append (refers_append (Expr.refers_codeArgs within args depth fit.2)
      (Expr.refers_code within callee (depth + args.length) fit.1)) (refers_singleton trivial)

theorem Expr.refers_codeArgs
    (within : ∀ name b, scope.resolve name = .ok b → b.Within functions natives) :
    ∀ (es : List Expr) (depth : Nat), Expr.AllLiteralsFit es →
      ∀ i, .instr i ∈ Expr.codeArgs scope depth es → i.Refers functions natives []
  | [], _, _ => fun _ member => absurd member List.not_mem_nil
  | e :: es, depth, fit =>
    refers_append (Expr.refers_codeArgs within es depth fit.2)
      (Expr.refers_code within e (depth + es.length) fit.1)

end

end

section

variable {functions natives : Nat}

mutual

theorem Stmt.refers_code (scope : Scope)
    (within : ∀ name b, scope.resolve name = .ok b → b.Within functions natives) :
    ∀ (s : Stmt) (labels : Nat), s.LiteralsFit →
      ∀ i, .instr i ∈ s.code scope labels →
        i.Refers functions natives (labelsOf (s.code scope labels))
  | .block _ body, labels, fit => Stmt.refers_codeAll scope.enterBlock within body labels fit
  | .loop word condition body, labels, fit => by
    have test := Expr.refers_code within condition 0 fit.1
    have inner := Stmt.refers_code scope within body (labels + 2) fit.2
    have subset : labelsOf (body.code scope (labels + 2)) ⊆
        labelsOf ((Stmt.loop word condition body).code scope labels) := labelsOf_subset_append _ _ _
    have entry : labels ∈ labelsOf ((Stmt.loop word condition body).code scope labels) := by
      rw [mem_labelsOf, Stmt.code]
      simp
    have exit : labels + 1 ∈ labelsOf ((Stmt.loop word condition body).code scope labels) := by
      rw [mem_labelsOf, Stmt.code]
      simp
    intro i member
    rw [Stmt.code] at member
    simp only [List.mem_append, List.mem_cons, List.not_mem_nil, or_false, reduceCtorEq,
      false_or, Line.instr.injEq] at member
    rcases member with ((member | rfl) | member) | rfl
    · exact (test i member).mono (List.nil_subset _)
    · exact exit
    · exact (inner i member).mono subset
    · exact entry
  | .ret _ value, labels, fit => by
    have inner := Expr.refers_code within value 0 fit
    exact refers_append (fun i member => (inner i member).mono (List.nil_subset _))
      (refers_singleton trivial)
  | .eval e, labels, fit => by
    have inner := Expr.refers_code within e 0 fit
    exact refers_append (fun i member => (inner i member).mono (List.nil_subset _))
      (refers_singleton trivial)

theorem Stmt.refers_codeAll (scope : Scope)
    (within : ∀ name b, scope.resolve name = .ok b → b.Within functions natives) :
    ∀ (ss : List Stmt) (labels : Nat), Stmt.AllLiteralsFit ss →
      ∀ i, .instr i ∈ Stmt.codeAll scope labels ss →
        i.Refers functions natives (labelsOf (Stmt.codeAll scope labels ss))
  | [], _, _ => fun _ member => absurd member List.not_mem_nil
  | s :: ss, labels, fit => by
    have first := Stmt.refers_code scope within s labels fit.1
    have rest := Stmt.refers_codeAll scope within ss (labels + s.labelCount) fit.2
    rw [Stmt.codeAll, labelsOf_append]
    exact refers_append (fun i member => (first i member).mono (List.subset_append_left _ _))
      (fun i member => (rest i member).mono (List.subset_append_right _ _))

end

end

mutual

theorem Stmt.exists_code_eq_ret (scope : Scope) :
    ∀ (s : Stmt) (labels : Nat), s.endsWithReturn = true →
      ∃ before, s.code scope labels = before ++ [.instr (.ret 0 scope.paramCount)]
  | .ret _ value, _, _ => ⟨value.code scope 0, rfl⟩
  | .block _ body, labels, ends => Stmt.exists_codeAll_eq_ret scope.enterBlock body labels ends
  | .loop .., _, ends => nomatch ends
  | .eval _, _, ends => nomatch ends

theorem Stmt.exists_codeAll_eq_ret (scope : Scope) :
    ∀ (ss : List Stmt) (labels : Nat), Stmt.lastEndsWithReturn ss = true →
      ∃ before, Stmt.codeAll scope labels ss = before ++ [.instr (.ret 0 scope.paramCount)]
  | [], _, ends => nomatch ends
  | [s], labels, ends => by
    obtain ⟨before, same⟩ := Stmt.exists_code_eq_ret scope s labels ends
    refine ⟨before, ?_⟩
    rw [Stmt.codeAll, Stmt.codeAll, List.append_nil, same]
  | s :: s' :: ss, labels, ends => by
    obtain ⟨before, same⟩ :=
      Stmt.exists_codeAll_eq_ret scope (s' :: ss) (labels + s.labelCount) ends
    refine ⟨s.code scope labels ++ before, ?_⟩
    rw [Stmt.codeAll, same, List.append_assoc]

end

end Tally

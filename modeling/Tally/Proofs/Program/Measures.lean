import Tally.Program.Lawful
import Tally.Program.Levels

namespace Tally

namespace Expr

theorem height_le_of_mem {e : Expr} {es : List Expr} (member : e ∈ es) :
    e.height ≤ greatestHeight es := by
  induction es with
  | nil => cases member
  | cons first es ih =>
    rw [greatestHeight]
    rcases List.mem_cons.mp member with rfl | member
    · exact Nat.le_max_left _ _
    · exact Nat.le_trans (ih member) (Nat.le_max_right _ _)

section

variable (left right callee : Expr) (at_ : Position) (args : List Expr)

theorem height_left_lt : left.height < (Expr.add left at_ right).height :=
  Nat.lt_succ_of_le (Nat.le_max_left _ _)

theorem height_right_lt : right.height < (Expr.add left at_ right).height :=
  Nat.lt_succ_of_le (Nat.le_max_right _ _)

theorem height_callee_lt : callee.height < (Expr.call callee at_ args).height :=
  Nat.lt_succ_of_le (Nat.le_max_left _ _)

variable {args} in
theorem height_argument_lt {e : Expr} (member : e ∈ args) :
    e.height < (Expr.call callee at_ args).height :=
  Nat.lt_succ_of_le (Nat.le_trans (height_le_of_mem member) (Nat.le_max_right _ _))

end

mutual

theorem height_le_of_subterm : (e : Expr) → ∀ inner ∈ e.subterms, inner.height ≤ e.height
  | .int .., _, member => Nat.le_of_eq (congrArg height (List.mem_singleton.mp member))
  | .ident _, _, member => Nat.le_of_eq (congrArg height (List.mem_singleton.mp member))
  | .add left plus right, inner, member => by
    rcases List.mem_append.mp member with parts | whole
    · rcases List.mem_append.mp parts with first | last
      · have below := height_left_lt left right plus
        exact Nat.le_trans (height_le_of_subterm left inner first) (Nat.le_of_lt below)
      · have below := height_right_lt left right plus
        exact Nat.le_trans (height_le_of_subterm right inner last) (Nat.le_of_lt below)
    · exact Nat.le_of_eq (congrArg height (List.mem_singleton.mp whole))
  | .call callee paren args, inner, member => by
    rcases List.mem_append.mp member with parts | whole
    · rcases List.mem_append.mp parts with first | rest
      · have below := height_callee_lt callee paren args
        exact Nat.le_trans (height_le_of_subterm callee inner first) (Nat.le_of_lt below)
      · obtain ⟨e, argument, inside⟩ := height_le_of_subterms args inner rest
        exact Nat.le_trans inside (Nat.le_of_lt (height_argument_lt callee paren argument))
    · exact Nat.le_of_eq (congrArg height (List.mem_singleton.mp whole))

theorem height_le_of_subterms : (es : List Expr) → ∀ inner ∈ Expr.allSubterms es,
    ∃ e ∈ es, inner.height ≤ e.height
  | e :: es, inner, member => by
    rcases List.mem_append.mp member with here | rest
    · exact ⟨e, List.mem_cons_self, height_le_of_subterm e inner here⟩
    · obtain ⟨e', later, inside⟩ := height_le_of_subterms es inner rest
      exact ⟨e', List.mem_cons_of_mem _ later, inside⟩

end

theorem mem_subterms_self (e : Expr) : e ∈ e.subterms := by
  cases e with
  | int | ident => exact List.mem_singleton_self _
  | add | call => exact List.mem_append_right _ (List.mem_singleton_self _)

end Expr

namespace Stmt

theorem nesting_pos (s : Stmt) : 0 < s.nesting := by
  cases s with
  | block | loop => exact Nat.succ_pos _
  | ret | eval => exact Nat.one_pos

theorem nesting_le_of_mem {s : Stmt} {ss : List Stmt} (member : s ∈ ss) :
    s.nesting ≤ greatestNesting ss := by
  induction ss with
  | nil => cases member
  | cons first ss ih =>
    rw [greatestNesting]
    rcases List.mem_cons.mp member with rfl | member
    · exact Nat.le_max_left _ _
    · exact Nat.le_trans (ih member) (Nat.le_max_right _ _)

theorem greatestNesting_le {ss : List Stmt} {n : Nat} (all : ∀ s ∈ ss, s.nesting ≤ n) :
    greatestNesting ss ≤ n := by
  induction ss with
  | nil => exact Nat.zero_le n
  | cons first ss ih =>
    obtain ⟨here, rest⟩ := List.forall_mem_cons.mp all
    exact Nat.max_le.mpr ⟨here, ih rest⟩

end Stmt

end Tally

import Tally.Proofs.Grammar.Extents
import Tally.Proofs.Grammar.Recorded
import Mathlib.Data.List.Nodup

namespace Tally

namespace Mark

def leaf? : Mark → Option Token
  | name text position => some ⟨.ident, text, position⟩
  | number digits position => some ⟨.int, digits, position⟩
  | _ => none

def place? (kind : Token.Kind) : Mark → Option Position
  | sign kind' position => if kind' = kind then some position else none
  | _ => none

def primitive? : Mark → Option String
  | primitive text => some text
  | _ => none

end Mark

namespace Recorded

variable {α : Type} {m : Mark} {t : Token} {ms : List Mark} {ts : List Token}
  {part : Mark → Option α} {chosen : Token → Bool} {of : Token → α}

/-- A part of the marks tells the same as a part of the tokens. -/
def Tells (part : Mark → Option α) (chosen : Token → Bool) (of : Token → α) : Prop :=
  ∀ t : Token, t.mark?.bind part = if chosen t then some (of t) else none

theorem Tells.filterMap_cons (tells : Tells part chosen of) (shown : t.mark? = some m) :
    (m :: ms).filterMap part = (if chosen t then [of t] else []) ++ ms.filterMap part := by
  have here := tells t
  rw [shown, Option.bind_some] at here
  rw [List.filterMap_cons, here]
  cases chosen t <;> rfl

theorem map_filter_cons : ((t :: ts).filter chosen).map of =
    (if chosen t then [of t] else []) ++ (ts.filter chosen).map of := by
  rw [List.filter_cons]
  cases chosen t <;> rfl

theorem filterMap_sublist (recorded : Recorded ms ts) (tells : Tells part chosen of) :
    (ms.filterMap part).Sublist ((ts.filter chosen).map of) := by
  induction recorded with
  | nil => exact .slnil
  | kept shown _ ih =>
    rw [tells.filterMap_cons shown, map_filter_cons]
    exact ih.append_left _
  | dropped _ _ ih =>
    rw [map_filter_cons]
    exact ih.trans (List.sublist_append_right _ _)

theorem filterMap_eq (recorded : Recorded ms ts) (tells : Tells part chosen of)
    (loud : ∀ t : Token, chosen t = true → t.kind.isSilent = false) :
    ms.filterMap part = (ts.filter chosen).map of := by
  induction recorded with
  | nil => rfl
  | kept shown _ ih => rw [tells.filterMap_cons shown, map_filter_cons, ih]
  | dropped silent _ ih =>
    have passed : ¬ chosen _ = true := fun picked => by cases silent.symm.trans (loud _ picked)
    rw [List.filter_cons_of_neg passed, ih]

theorem tells_leaf : Tells Mark.leaf? (fun t => t.kind = .ident ∨ t.kind = .int) id := by
  rintro ⟨kind, text, start⟩
  cases kind <;> rfl

theorem tells_primitive : Tells Mark.primitive? (fun t => t.kind = .string) Token.text := by
  rintro ⟨kind, text, start⟩
  cases kind <;> rfl

def placed : List Token.Kind := [.plus, .lbrace, .whileWord, .returnWord, .funcWord]

theorem loud_of_placed : ∀ kind ∈ placed, kind.isSilent = false := by decide

theorem tells_place {kind : Token.Kind} (sign : kind = .lparen ∨ kind ∈ placed) :
    Tells (Mark.place? kind) (fun t => t.kind = kind) Token.start := by
  rintro ⟨kind', text, start⟩
  simp only [placed, List.mem_cons, List.not_mem_nil, or_false] at sign
  rcases sign with rfl | rfl | rfl | rfl | rfl | rfl <;> cases kind' <;> rfl

end Recorded

mutual

theorem Expr.primitives_marks : (e : Expr) → e.marks.filterMap Mark.primitive? = []
  | .int .. => rfl
  | .ident _ => rfl
  | .add left _ right => by
    rw [marks, List.filterMap_append, List.filterMap_cons_none rfl, left.primitives_marks,
      right.primitives_marks, List.append_nil]
  | .call callee _ args => by
    rw [marks, List.filterMap_append, List.filterMap_cons_none rfl, callee.primitives_marks,
      Expr.primitives_allMarks args, List.append_nil]

theorem Expr.primitives_allMarks : (es : List Expr) →
    (Expr.allMarks es).filterMap Mark.primitive? = []
  | [] => rfl
  | e :: es => by
    rw [allMarks, List.filterMap_append, e.primitives_marks, Expr.primitives_allMarks es,
      List.append_nil]

end

mutual

theorem Stmt.primitives_marks : (s : Stmt) → s.marks.filterMap Mark.primitive? = []
  | .block _ body => by
    rw [marks, List.filterMap_cons_none rfl, Stmt.primitives_allMarks body]
  | .loop _ condition body => by
    rw [marks, List.filterMap_cons_none rfl, List.filterMap_append, condition.primitives_marks,
      body.primitives_marks, List.append_nil]
  | .ret _ value => by
    rw [marks, List.filterMap_cons_none rfl, value.primitives_marks]
  | .eval e => e.primitives_marks

theorem Stmt.primitives_allMarks : (ss : List Stmt) →
    (Stmt.allMarks ss).filterMap Mark.primitive? = []
  | [] => rfl
  | s :: ss => by
    rw [allMarks, List.filterMap_append, s.primitives_marks, Stmt.primitives_allMarks ss,
      List.append_nil]

end

theorem Header.primitives_marks (h : Header) : h.marks.filterMap Mark.primitive? = [] := by
  have params : (h.params.flatMap Param.marks).filterMap Mark.primitive? = [] := by
    rw [List.filterMap_flatMap]
    exact List.flatMap_eq_nil_iff.mpr fun p _ => rfl
  rw [marks, List.filterMap_cons_none rfl, List.filterMap_cons_none rfl, List.filterMap_append,
    params]
  rfl

theorem Program.primitives_marks (p : Program) :
    p.marks.filterMap Mark.primitive? = p.prototypes.map Prototype.primitive := by
  obtain ⟨items⟩ := p
  change (items.flatMap Item.marks).filterMap _ = (items.filterMap _).map _
  induction items with
  | nil => rfl
  | cons i items ih =>
    rw [List.flatMap_cons, List.filterMap_append, ih]
    cases i with
    | definition d =>
      rw [Item.marks, List.filterMap_append, d.header.primitives_marks, d.block.primitives_marks]
      rfl
    | prototype q =>
      rw [Item.marks, List.filterMap_append, q.header.primitives_marks]
      rfl
    | stmt s =>
      rw [Item.marks, s.primitives_marks]
      rfl

namespace Program

/-- A tree has all tokens of a text that are more than punctuation, in their order and at their
places, and each of its calls has a parenthesis of its own. -/
structure KeepsTokens (p : Program) (ts : List Token) : Prop where
  leaves : p.marks.filterMap Mark.leaf? = ts.filter fun t => t.kind = .ident ∨ t.kind = .int
  places : ∀ kind ∈ Recorded.placed,
    p.marks.filterMap (Mark.place? kind) = (ts.filter fun t => t.kind = kind).map Token.start
  primitives : p.prototypes.map Prototype.primitive =
    (ts.filter fun t => t.kind = .string).map Token.text
  calls : (p.marks.filterMap (Mark.place? .lparen)).Sublist
    ((ts.filter fun t => t.kind = .lparen).map Token.start)
  distinct : (p.marks.filterMap (Mark.place? .lparen)).Nodup
  once : (ts.map Token.start).Nodup

theorem keepsTokens_of_recorded {p : Program} {ts : List Token} (recorded : Recorded p.marks ts)
    (once : (ts.map Token.start).Nodup) : p.KeepsTokens ts := by
  have calls := recorded.filterMap_sublist (Recorded.tells_place (.inl rfl))
  refine ⟨?_, ?_, ?_, calls, ?_, once⟩
  · have leaves := recorded.filterMap_eq Recorded.tells_leaf fun t picked => ?_
    · rwa [List.map_id] at leaves
    · rcases of_decide_eq_true picked with name | number
      · rw [name]
        rfl
      · rw [number]
        rfl
  · intro kind sign
    apply recorded.filterMap_eq (Recorded.tells_place (.inr sign))
    intro t picked
    rw [of_decide_eq_true picked]
    exact Recorded.loud_of_placed kind sign
  · rw [← primitives_marks]
    apply recorded.filterMap_eq Recorded.tells_primitive
    intro t picked
    rw [of_decide_eq_true picked]
    rfl
  · exact calls.nodup ((List.filter_sublist.map Token.start).nodup once)

/-- The tree that a text is read as keeps the tokens of the text. -/
theorem keepsTokens_of_parse {text : String} {p : Program} (read : parse text = .ok p) :
    ∃ ts ending, tokenize text = .ok (ts ++ [⟨.eof, "", ending⟩]) ∧ p.KeepsTokens ts := by
  obtain ⟨ts, ending, lexed, derived⟩ := exists_derivation read
  have once : (ts.map Token.start).Nodup := by
    have starts := nodup_starts (t := ⟨.eof, "", ending⟩) lexed
    rw [List.map_append] at starts
    exact (List.nodup_append.mp starts).1
  exact ⟨ts, ending, lexed, keepsTokens_of_recorded derived.recorded once⟩

def groupingText : String := "func f(a: int): int = \"abs\"
func g(): int \x7b while (1) return (f)((1 + 2)) \x7d"

theorem keepsTokens_of_parse_sample : ∃ p, parse groupingText = .ok p ∧
    ∃ ts ending, tokenize groupingText = .ok (ts ++ [⟨.eof, "", ending⟩]) ∧ p.KeepsTokens ts := by
  have accepted : (match parse groupingText with
      | .ok _ => true
      | .error _ => false) = true := by
    decide +kernel
  cases read : parse groupingText with
  | ok p => exact ⟨p, rfl, keepsTokens_of_parse read⟩
  | error r =>
    rw [read] at accepted
    cases accepted

end Program

end Tally

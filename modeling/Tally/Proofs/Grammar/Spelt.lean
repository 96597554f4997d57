import Tally.Program.Levels
import Tally.Proofs.Grammar.Exact
import Tally.Proofs.Grammar.Recorded

namespace Tally

def Mark.Spelt : Mark → Prop
  | name text position => (Token.mk .ident text position).Spelt
  | number digits position => (Token.mk .int digits position).Spelt
  | primitive text => (Token.mk .string text .start).Spelt
  | sign .. => True

theorem Recorded.spelt {ms : List Mark} {ts : List Token} (recorded : Recorded ms ts)
    (tokens : ∀ t ∈ ts, t.Spelt) : ∀ m ∈ ms, m.Spelt := by
  induction recorded with
  | nil => nofun
  | @kept m t ms ts shown _ ih =>
    obtain ⟨here, rest⟩ := List.forall_mem_cons.mp tokens
    refine List.forall_mem_cons.mpr ⟨?_, ih rest⟩
    obtain ⟨kind, text, start⟩ := t
    cases kind <;> cases shown <;> first | exact here | trivial
  | dropped _ _ ih => exact ih (List.forall_mem_cons.mp tokens).2

mutual

theorem Stmt.marks_of_part : (s : Stmt) → ∀ part ∈ s.parts, part.marks ⊆ s.marks
  | .block .., _, member => by
    rcases List.mem_cons.mp member with rfl | inner
    · exact List.Subset.refl _
    · exact List.subset_cons_of_subset _ (Stmt.marks_of_parts _ _ inner)
  | .loop _ _ body, part, member => by
    rcases List.mem_cons.mp member with rfl | inner
    · exact List.Subset.refl _
    · have below := body.marks_of_part part inner
      exact List.subset_cons_of_subset _ (List.subset_append_of_subset_right _ below)
  | .ret .., _, member => by
    rw [List.mem_singleton.mp member]
    exact List.Subset.refl _
  | .eval _, _, member => by
    rw [List.mem_singleton.mp member]
    exact List.Subset.refl _

theorem Stmt.marks_of_parts : (ss : List Stmt) →
    ∀ part ∈ Stmt.allParts ss, part.marks ⊆ Stmt.allMarks ss
  | s :: ss, part, member => by
    rcases List.mem_append.mp member with here | later
    · exact List.subset_append_of_subset_left _ (s.marks_of_part part here)
    · exact List.subset_append_of_subset_right _ (Stmt.marks_of_parts ss part later)

end

theorem Item.marks_of_part (i : Item) : ∀ part ∈ i.parts, part.marks ⊆ i.marks := by
  cases i with
  | definition d =>
    intro part member
    exact List.subset_append_of_subset_right _ (d.block.marks_of_part part member)
  | prototype p => nofun
  | stmt s => exact s.marks_of_part

namespace Program

variable {text : String} {p : Program}

theorem spelt_of_parse (read : parse text = .ok p) : ∀ m ∈ p.marks, m.Spelt := by
  obtain ⟨ts, ending, lexed, derived⟩ := exists_derivation read
  have tokens := TokenStream.spelt text
  rw [TokenStream.of_tokenize lexed] at tokens
  exact derived.recorded.spelt tokens

end Program

end Tally

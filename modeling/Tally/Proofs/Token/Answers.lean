import Tally.Token.Answers
import Tally.Proofs.Token.Segmented
import Mathlib.Data.List.Induction

namespace Tally

namespace Position

theorem after_start (cs : List Char) :
    start.after cs = ⟨cs.length, cs.count '\n', (cs.reverse.takeWhile (· ≠ '\n')).length⟩ := by
  induction cs using List.reverseRecOn with
  | nil => rfl
  | append_singleton cs c ih =>
    rw [after_append, ih]
    by_cases line : c = '\n'
    · simp [line, after, next]
    · simp [line, after, next]

theorem counted_after (before rest : List Char) : (start.after before).Counted (before ++ rest) := by
  rw [after_start]
  exact ⟨by simp, by simp, by simp⟩

end Position

namespace Cursor

def Leads (c m : Cursor) : Prop :=
  ∃ between, c.rest = between ++ m.rest ∧ m.position = c.position.after between

namespace Leads

variable {c m d : Cursor}

theorem refl (c : Cursor) : c.Leads c := ⟨[], rfl, rfl⟩

theorem trans (first : c.Leads m) (second : m.Leads d) : c.Leads d := by
  obtain ⟨as, split, place⟩ := first
  obtain ⟨bs, split', place'⟩ := second
  refine ⟨as ++ bs, ?_, ?_⟩
  · rw [split, split', List.append_assoc]
  · rw [place', place, Position.after_append]

theorem char_le (leads : c.Leads m) : c.position.char ≤ m.position.char := by
  obtain ⟨between, _, place⟩ := leads
  rw [place, Position.char_after]
  exact Nat.le_add_right _ _

end Leads

variable (c : Cursor)

theorem leads_skipWhile (p : Char → Bool) : c.Leads (c.skipWhile p) :=
  ⟨_, c.rest_skipWhile p, rfl⟩

theorem leads_skipOne : c.Leads c.skipOne := by
  unfold skipOne
  split
  · exact .refl c
  · rename_i ch rest head
    exact ⟨[ch], head, rfl⟩

theorem leads_skipTrivia : c.Leads c.skipTrivia := by
  obtain ⟨gap, split, place, _⟩ := c.skipTrivia_spec
  exact ⟨gap, split, place⟩

theorem leads_number : c.Leads c.number.2 ∧
    (placeTold c.number.1 = c.position ∨ placeTold c.number.1 = c.number.2.position) := by
  have moved := c.leads_skipWhile Char.isDigit
  unfold number
  dsimp only
  split
  · exact ⟨moved, .inr rfl⟩
  split
  · exact ⟨moved, .inl rfl⟩
  · exact ⟨moved, .inl rfl⟩

theorem leads_string : c.Leads c.string.2 ∧ placeTold c.string.1 = c.position := by
  have moved := c.leads_skipOne.trans (c.skipOne.leads_skipWhile isQuotable)
  unfold string
  dsimp only
  split
  · exact ⟨moved.trans (leads_skipOne _), rfl⟩
  · exact ⟨moved, rfl⟩

theorem leads_token : c.Leads c.token.2 ∧
    (placeTold c.token.1 = c.position ∨ placeTold c.token.1 = c.token.2.position) := by
  unfold token
  split
  · exact ⟨.refl c, .inl rfl⟩
  split
  · exact ⟨c.leads_string.1, .inl c.leads_string.2⟩
  split
  · exact c.leads_number
  split
  · exact ⟨c.leads_skipWhile isWordChar, .inl rfl⟩
  split
  · exact ⟨c.leads_skipOne, .inl rfl⟩
  · exact ⟨.refl c, .inl rfl⟩

theorem leads_next : ∃ m, c.Leads m ∧ m.Leads c.next.2 ∧ placeTold c.next.1 = m.position := by
  have skipped := c.leads_skipTrivia
  obtain ⟨moved, place | place⟩ := c.skipTrivia.leads_token
  · exact ⟨_, skipped, moved, place⟩
  · exact ⟨_, skipped.trans moved, .refl _, place⟩

theorem leads_answers {c : Cursor} {n : Nat} {a : LexAnswer} (given : a ∈ c.answers n) :
    ∃ m, c.Leads m ∧ placeTold a = m.position := by
  induction n generalizing c with
  | zero => cases given
  | succ n ih =>
    obtain ⟨m, reached, onward, place⟩ := c.leads_next
    rcases List.mem_cons.mp given with rfl | later
    · exact ⟨m, reached, place⟩
    · obtain ⟨d, further, place'⟩ := ih later
      exact ⟨d, (reached.trans onward).trans further, place'⟩

theorem forward_answers (n : Nat) :
    (c.answers n).Pairwise fun a b => (placeTold a).char ≤ (placeTold b).char := by
  induction n generalizing c with
  | zero => exact .nil
  | succ n ih =>
    refine .cons (fun b later => ?_) (ih _)
    obtain ⟨m, _, onward, place⟩ := c.leads_next
    obtain ⟨d, further, place'⟩ := leads_answers later
    rw [place, place']
    exact (onward.trans further).char_le

theorem answers_of_finished {c : Cursor} (finished : c.rest = []) {n : Nat} :
    ∀ b ∈ c.answers n, b = .ok ⟨.eof, "", c.position⟩ := by
  obtain ⟨rest, p⟩ := c
  cases finished
  induction n with
  | zero => nofun
  | succ n ih => exact List.forall_mem_cons.mpr ⟨rfl, ih⟩

theorem finished_of_eof {c : Cursor} {t : Token} (read : c.next.1 = .ok t) (last : t.kind = .eof) :
    c.next.2.rest = [] ∧ t = ⟨.eof, "", c.next.2.position⟩ := by
  obtain ⟨_, _, _, _, tells⟩ := c.next_tells
  have split : c.next = (.ok t, c.next.2) := Prod.ext read rfl
  rw [split] at tells
  obtain ⟨_, finished⟩ := (if_pos last).mp tells
  have here : c.next = (.ok ⟨.eof, "", c.skipTrivia.position⟩, c.skipTrivia) := by
    unfold next token
    rw [finished]
  rw [here] at read ⊢
  exact ⟨finished, (Except.ok.inj read).symm⟩

theorem ended_answers (n : Nat) :
    (c.answers n).Pairwise fun a b => ∀ t, a = .ok t → t.kind = .eof → b = a := by
  induction n generalizing c with
  | zero => exact .nil
  | succ n ih =>
    refine .cons (fun b later t read last => ?_) (ih _)
    obtain ⟨finished, rfl⟩ := finished_of_eof read last
    rw [answers_of_finished finished b later, read]

theorem counted_of_leads {text : String} {m : Cursor} (leads : (ofText text).Leads m) :
    m.position.Counted text.toList := by
  obtain ⟨before, split, place⟩ := leads
  have whole : text.toList = before ++ (m.rest ++ text.toList.dropWhile (· ≠ '\x00')) := by
    have parts := List.takeWhile_append_dropWhile (p := (· ≠ '\x00')) (l := text.toList)
    have taken : text.toList.takeWhile (· ≠ '\x00') = before ++ m.rest := split
    rw [← List.append_assoc, ← taken, parts]
  rw [place, whole]
  exact Position.counted_after before _

/-- Whatever a cursor of a text is asked, its places are exact, never go back, and end at the end. -/
theorem answers_track (text : String) (n : Nat) : Tracks text.toList ((ofText text).answers n) where
  counted a given := by
    obtain ⟨m, reached, place⟩ := leads_answers given
    rw [place]
    exact counted_of_leads reached
  forward := forward_answers _ n
  ended := ended_answers _ n

end Cursor

end Tally

import Tally.Proofs.Channel.Words
import Mathlib.Data.List.Basic

namespace Tally

namespace Delivery

/-- A read of no bytes and the failure `EOF` tell that there is no more input. -/
def Ends : Delivery → Prop
  | bytes bs => bs = []
  | fails code _ => code = "EOF"

instance : DecidablePred Ends
  | bytes bs => inferInstanceAs (Decidable (bs = []))
  | fails code _ => inferInstanceAs (Decidable (code = "EOF"))

def content : Delivery → List UInt8
  | bytes bs => bs
  | fails _ _ => []

def text (d : Delivery) : List Char := Utf8.decode d.content

theorem text_fails (code message : String) : (fails code message).text = [] := rfl

/-- The failure that a read passes on to the call that made it. -/
def failure? : Delivery → Option String
  | bytes _ => none
  | fails code message => if code = "EAGAIN" ∨ code = "EOF" then none else some message

end Delivery

def answerOf (w : List Char) : Except String Int :=
  (parseNumeral w).mapError NumeralFault.message

/-- Answers that use up words and failures, each kind in its order and each of them once, and that
are zero when both are used up. The calls may stop at any time. -/
inductive Served : List (List Char) → List String → List (Except String Int) → Prop
  | done {ws fs} : Served ws fs []
  | word {w ws fs answers} : Served ws fs answers →
      Served (w :: ws) fs (answerOf w :: answers)
  | failure {f ws fs answers} : Served ws fs answers → Served ws (f :: fs) (.error f :: answers)
  | zero {answers} : Served [] [] answers → Served [] [] (.ok 0 :: answers)

theorem Served.eq_takeD {ws : List (List Char)} {answers : List (Except String Int)}
    (served : Served ws [] answers) :
    answers = (ws.map answerOf).takeD answers.length (.ok 0) := by
  generalize none : ([] : List String) = fs at served
  induction served with
  | done => rfl
  | word _ ih => exact congrArg _ (ih none)
  | failure => cases none
  | zero _ ih => exact congrArg _ (ih none)

namespace Console

def reads : Nat → Console → List (Except String Int) × Console
  | 0, c => ([], c)
  | calls + 1, c =>
    let (answer, c) := c.read
    let (answers, c) := reads calls c
    (answer :: answers, c)

/-- The words and the failures that a console still has to answer with. The input ends with the
first of the reads `after`, or when there are no reads any more. -/
inductive Owes (after : List Delivery) : Console → List (List Char) → List String → Prop
  | reading {lines unused} (before : List Delivery) (live : ∀ d ∈ before, ¬ d.Ends) :
      Owes after ⟨before ++ after, unused, false, lines⟩
        (wordsOf (unused ++ before.flatMap Delivery.text)) (before.filterMap Delivery.failure?)
  | ended {lines unused} : Owes after ⟨after.tail, unused, true, lines⟩ (wordsOf unused) []

/-- What a search found is the first thing that was owed, and the rest is owed after it. -/
def Pays (after : List Delivery) (ws : List (List Char)) (fs : List String) :
    Found × Console → Prop
  | (.word w, c) => ∃ ws', ws = w :: ws' ∧ Owes after c ws' fs
  | (.failure f, c) => ∃ fs', fs = f :: fs' ∧ Owes after c ws fs'
  | (.nothing, c) => ws = [] ∧ fs = [] ∧ Owes after c [] []

variable {after before : List Delivery} {lines : List String} {unused : List Char}

theorem finish_pays : Pays after (wordsOf unused) [] (finish lines after.tail unused) := by
  unfold finish
  cases found : word? unused true with
  | some p =>
    obtain ⟨w, rest⟩ := p
    have first : wordsOf (unused ++ []) = w :: wordsOf (rest ++ []) :=
      wordsOf_of_word? found fun _ => rfl
    rw [List.append_nil, List.append_nil] at first
    exact ⟨wordsOf rest, first, .ended⟩
  | none =>
    have nothing := wordsOf_of_word?_none found
    refine ⟨nothing, rfl, ?_⟩
    rw [← nothing, ← wordsOf_dropWhile_self]
    exact .ended

theorem pays_of_word {w rest : List Char} (live : ∀ d ∈ before, ¬ d.Ends)
    (found : word? unused false = some (w, rest)) :
    Pays after (wordsOf (unused ++ before.flatMap Delivery.text))
      (before.filterMap Delivery.failure?) (seek lines (before ++ after) unused) := by
  have search : seek lines (before ++ after) unused =
      (.word w, ⟨before ++ after, rest, false, lines⟩) := by
    unfold seek
    rw [found]
  rw [search]
  exact ⟨_, wordsOf_of_word? found nofun, .reading before live⟩

theorem seek_end_pays (ends : ∀ d ∈ after.head?, d.Ends) (found : word? unused false = none) :
    Pays after (wordsOf unused) [] (seek lines after unused) := by
  unfold seek
  rw [found]
  cases after with
  | nil => exact finish_pays
  | cons d after =>
    have last : d.Ends := ends d rfl
    cases d with
    | bytes bs =>
      cases last
      exact finish_pays
    | fails code message =>
      cases last
      exact finish_pays

/-- By induction on the reads before the end, for any characters that earlier reads left unused. -/
theorem seek_pays (ends : ∀ d ∈ after.head?, d.Ends) (live : ∀ d ∈ before, ¬ d.Ends) :
    Pays after (wordsOf (unused ++ before.flatMap Delivery.text))
      (before.filterMap Delivery.failure?) (seek lines (before ++ after) unused) := by
  induction before generalizing unused with
  | nil =>
    cases found : word? unused false with
    | some p => exact pays_of_word live found
    | none =>
      rw [List.flatMap_nil, List.append_nil, List.nil_append, List.filterMap_nil]
      exact seek_end_pays ends found
  | cons d before ih =>
    cases found : word? unused false with
    | some p => exact pays_of_word live found
    | none =>
      have rest : ∀ d ∈ before, ¬ d.Ends := fun d member => live d (List.mem_cons_of_mem _ member)
      have more : ¬ d.Ends := live d List.mem_cons_self
      rw [List.cons_append, List.flatMap_cons, List.filterMap_cons]
      unfold seek
      rw [found]
      cases d with
      | bytes bs =>
        cases bs with
        | nil => exact absurd rfl more
        | cons b bs =>
          -- White space is dropped before more is read, which changes no word.
          have next := @ih (unused.dropWhile isBlank ++ Utf8.decode (b :: bs)) rest
          rw [List.append_assoc, wordsOf_dropWhile] at next
          exact next
      | fails code message =>
        have ended : code ≠ "EOF" := more
        by_cases again : code = "EAGAIN"
        · simpa [again, Delivery.failure?, Delivery.text_fails] using ih rest
        · simp only [again, ended, if_false, Delivery.failure?, or_self]
          exact ⟨_, rfl, .reading before rest⟩

def search (c : Console) : Found × Console :=
  if c.ended then finish c.lines c.deliveries c.unused
  else seek c.lines c.deliveries c.unused

theorem search_pays {c : Console} {ws : List (List Char)} {fs : List String}
    (ends : ∀ d ∈ after.head?, d.Ends) (owes : Owes after c ws fs) : Pays after ws fs c.search := by
  cases owes with
  | reading before live => exact seek_pays ends live
  | ended => exact finish_pays

def Found.answer : Found → Except String Int
  | .word w => answerOf w
  | .nothing => .ok 0
  | .failure message => .error message

theorem read_eq (c : Console) : c.read = (c.search.1.answer, c.search.2) := by
  have searched : (if c.ended then finish c.lines c.deliveries c.unused
      else seek c.lines c.deliveries c.unused) = c.search := rfl
  unfold read
  rw [searched]
  rcases c.search with ⟨_ | _ | _, c'⟩ <;> rfl

theorem served_reads {c : Console} {ws : List (List Char)} {fs : List String} (calls : Nat)
    (ends : ∀ d ∈ after.head?, d.Ends) (owes : Owes after c ws fs) :
    Served ws fs (reads calls c).1 ∧ ∃ ws' fs', Owes after (reads calls c).2 ws' fs' := by
  induction calls generalizing c ws fs with
  | zero => exact ⟨.done, ws, fs, owes⟩
  | succ calls ih =>
    have paid := search_pays ends owes
    rw [reads, read_eq]
    rcases found : c.search with ⟨_ | _ | _, c'⟩ <;> rw [found] at paid
    · obtain ⟨ws', rfl, owes'⟩ := paid
      exact ⟨.word (ih owes').1, (ih owes').2⟩
    · obtain ⟨rfl, rfl, owes'⟩ := paid
      exact ⟨.zero (ih owes').1, (ih owes').2⟩
    · obtain ⟨fs', rfl, owes'⟩ := paid
      exact ⟨.failure (ih owes').1, (ih owes').2⟩

end Console

end Tally

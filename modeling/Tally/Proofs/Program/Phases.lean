import Tally.Proofs.Grammar.Progress
import Tally.Proofs.Program.Accepted

namespace Tally

def Rejection.fault? : Rejection → Option LexError
  | unreadableStart e => some e
  | unreadable e _ => some e
  | malformed .. => none

theorem Reading.sequenceRound_inr {α : Type} {item : Reading α} {stops : Token.Kind → Prop}
    [DecidablePred stops] {inBlock : Bool} {before result : List α} {s s' : ReadingState}
    (ends : sequenceRound stops inBlock item before s = .value (.inr result) s') :
    stops s'.current.kind := by
  by_cases stop : stops s.current.kind
  · rw [sequenceRound_stop stop] at ends
    cases ends
    exact stop
  · rw [sequenceRound_goesOn stop] at ends
    cases outcome : item s with
    | value a s'' =>
      rw [outcome] at ends
      cases ends
    | abandoned why s'' =>
      rw [outcome] at ends
      cases ends
    | failed s'' =>
      rw [outcome] at ends
      dsimp only at ends
      cases resumed : recover inBlock s'' with
      | value u s₃ =>
        rw [bind_of_value resumed] at ends
        cases ends
      | failed s₃ =>
        rw [bind_of_failed resumed] at ends
        cases ends
      | abandoned why s₃ =>
        rw [bind_of_abandoned resumed] at ends
        cases ends

namespace Item

variable {s s' : ReadingState} {items : List Item}

theorem kind_of_repeats {before : List Item} {o : Outcome (List Item)}
    (repeats : Reading.Repeats round before s o) (value : o = .value items s') :
    s'.current.kind = .eof := by
  induction repeats with
  | value last =>
    cases value
    exact Reading.sequenceRound_inr last
  | failed | abandoned => cases value
  | next _ _ ih => exact ih value

theorem ending_of_value (readable : s.Readable) (value : parseAll s = .value items s') :
    ∃ p, s.ending = .eof p := by
  have repeats := (Reading.iterate_paced round_advances [] s readable).1
  have last := kind_of_repeats repeats value
  have reads := parseAll_reads s readable
  have paced := parseAll_paced readable
  rw [value] at reads paced
  obtain ⟨readable', _⟩ := reads
  obtain ⟨n, es, noted, _⟩ := paced
  have finished : s'.tokens = [] := by
    rcases s'.eq_nil_or_cons with none | some
    · exact none
    · exact absurd last (readable'.tokens _ (some ▸ List.mem_cons_self))
  obtain ⟨p, ends⟩ := readable'.ending finished
  exact ⟨p, noted.ending.symm.trans ends⟩

end Item

namespace Program

variable {text : String} {known : PrimitiveNames} {filename : String}

/-- Reading is given up at a nesting limit. -/
def GivesUp (text : String) : Prop :=
  ∃ s, Item.parseAll (.ofStream (TokenStream.ofText text)) = .abandoned .limit s

inductive Ends (text : String) : Prop where
  | unreadable {e : LexError} {r : Rejection} (lexed : tokenize text = .error e)
    (rejected : parse text = .error r) (fault : r.fault? = some e)
  | malformed {ts : List Token} {first : ParseError} {others : List ParseError}
    (lexed : tokenize text = .ok ts) (errors : noted text = first :: others)
    (rejected : parse text = .error (.malformed first others))
  | accepted {ts : List Token} {p : Program} (lexed : tokenize text = .ok ts)
    (errors : noted text = []) (read : parse text = .ok p)

theorem tokenize_of_fault {e : LexError} (ending : (TokenStream.ofText text).ending = .fault e) :
    tokenize text = .error e := by
  unfold tokenize
  dsimp only
  rw [ending]

theorem exists_tokenize {p : Position} (ending : (TokenStream.ofText text).ending = .eof p) :
    ∃ ts, tokenize text = .ok ts := by
  unfold tokenize
  dsimp only
  rw [ending]
  exact ⟨_, rfl⟩

theorem ends_of_not_givesUp (within : ¬ GivesUp text) : Ends text := by
  rcases parse_eq_verdict text with ⟨e, rejected, fault, _⟩ | ⟨readable, judged⟩
  · exact .unreadable (tokenize_of_fault fault) rejected rfl
  have paced := Item.parseAll_paced readable
  have errors : noted text =
      (Item.parseAll (.ofStream (TokenStream.ofText text))).errors.reverse := rfl
  cases outcome : Item.parseAll (.ofStream (TokenStream.ofText text)) with
  | failed s =>
    rw [outcome] at paced
    exact paced.elim
  | abandoned why s =>
    cases why with
    | limit => exact absurd ⟨s, outcome⟩ within
    | unreadable e =>
      rw [outcome] at paced judged
      obtain ⟨_, _, fault, _⟩ := paced
      exact .unreadable (tokenize_of_fault fault) judged rfl
  | value items s =>
    obtain ⟨p, ending⟩ := Item.ending_of_value readable outcome
    obtain ⟨ts, lexed⟩ := exists_tokenize ending
    rw [outcome] at judged errors
    change parse text = judge items s at judged
    unfold judge at judged
    change noted text = s.errors.reverse at errors
    cases all : s.errors.reverse with
    | nil =>
      rw [all] at judged errors
      exact .accepted lexed errors judged
    | cons first others =>
      rw [all] at judged errors
      exact .malformed lexed errors judged

theorem compileText_of_rejected {r : Rejection} (rejected : parse text = .error r) :
    compileText known true filename text = .error (.rejection r) := by
  unfold compileText
  rw [rejected]
  rfl

theorem compileText_of_read {p : Program} (read : parse text = .ok p) :
    compileText known true filename text = match p.violations with
      | [] => (p.compile known filename).mapError .compilation
      | first :: others => .error (.violation first others) := by
  unfold compileText
  rw [read]
  change (do p.check; (p.compile known filename).mapError .compilation) = _
  unfold check
  cases p.violations <;> rfl

def FailsIn (phase : Phase) (known : PrimitiveNames) (filename text : String) : Prop :=
  ∃ o, compileText known true filename text = .error o ∧ o.phase = phase

theorem failsIn_iff {phase : Phase} {o : Obstacle}
    (refused : compileText known true filename text = .error o) :
    FailsIn phase known filename text ↔ o.phase = phase := by
  unfold FailsIn
  rw [refused]
  simp

/-- A text fails as if all its tokens were read first, then parsed, then checked, then compiled. -/
structure FailsInOrder (known : PrimitiveNames) (filename text : String) : Prop where
  fault : ∀ e, (∃ r, parse text = .error r ∧ r.fault? = some e) ↔ tokenize text = .error e
  read : (∃ p, parse text = .ok p) ↔ (∃ ts, tokenize text = .ok ts) ∧ noted text = []
  reading : FailsIn .reading known filename text ↔ ∃ e, tokenize text = .error e
  parsing : FailsIn .parsing known filename text ↔
    (∃ ts, tokenize text = .ok ts) ∧ noted text ≠ []
  checking : FailsIn .checking known filename text ↔
    (∃ ts, tokenize text = .ok ts) ∧ ∃ p, parse text = .ok p ∧ p.violations ≠ []
  compiling : (∃ c, compileText known true filename text = .ok c) ∨
      FailsIn .compiling known filename text ↔
    (∃ ts, tokenize text = .ok ts) ∧ ∃ p, parse text = .ok p ∧ p.violations = []

theorem Ends.failsInOrder (ends : Ends text) : FailsInOrder known filename text := by
  cases ends with
  | unreadable lexed rejected fault =>
    rename_i e r
    have refused : compileText known true filename text = .error (.rejection r) :=
      compileText_of_rejected rejected
    have phase : (Obstacle.rejection r).phase = .reading := by
      cases r with
      | unreadableStart | unreadable => rfl
      | malformed => cases fault
    constructor <;> simp [failsIn_iff refused, lexed, rejected, refused, fault, phase]
  | malformed lexed errors rejected =>
    have refused : compileText known true filename text = .error (.rejection (.malformed ..)) :=
      compileText_of_rejected rejected
    constructor <;>
      simp [failsIn_iff refused, lexed, rejected, refused, errors, Rejection.fault?, Obstacle.phase]
  | accepted lexed errors read =>
    rename_i ts p
    have made : compileText known true filename text = _ := compileText_of_read read
    cases violations : p.violations with
    | cons first others =>
      rw [violations] at made
      constructor <;>
        simp [failsIn_iff made, lexed, read, made, errors, violations, Obstacle.phase]
    | nil =>
      rw [violations] at made
      cases compiled : p.compile known filename with
      | error e =>
        rw [compiled] at made
        have refused : compileText known true filename text = .error (.compilation e) := made
        constructor <;>
          simp [failsIn_iff refused, lexed, read, errors, violations, Obstacle.phase]
      | ok c =>
        rw [compiled] at made
        have accepted : compileText known true filename text = .ok c := made
        constructor <;> simp [FailsIn, accepted, lexed, read, errors, violations]

/-- What is given up at a nesting limit is no question of its tokens: parsing fails. -/
theorem failsIn_parsing_of_givesUp (up : GivesUp text) :
    FailsIn .parsing known filename text := by
  obtain ⟨s, limit⟩ := up
  rcases parse_eq_verdict text with ⟨_, _, _, none⟩ | ⟨readable, judged⟩
  · rw [Item.parseAll_of_finished none] at limit
    cases limit
  · have paced := Item.parseAll_paced readable
    rw [limit] at judged paced
    obtain ⟨es, stopped, some, _⟩ := paced
    obtain rfl | ⟨later, e, rfl⟩ := List.eq_nil_or_concat es
    · exact absurd rfl some
    have first : s.errors = later ++ [e] := by
      rw [stopped.errors]
      exact (List.append_nil _).trans List.concat_eq_append
    exact ⟨_, compileText_of_rejected (judged.trans (judge_of_errors first)), rfl⟩

/-- Whatever errors stand before it, a token that cannot be read is come to unless reading is given
up at a nesting limit, which is an error of parsing, and a phase fails only where all phases before
it succeed. Where no code is made, nothing runs: no instruction is seen, and the host is left as it
was. -/
theorem failures_in_order (text : String) :
    (∀ known filename, ¬ GivesUp text → FailsInOrder known filename text) ∧
    (∀ known filename, GivesUp text → FailsIn .parsing known filename text) ∧
    ∀ {σ τ : Type} (registry : Registry σ) (capacity limit : Nat) (observe : τ → Event → τ)
      (seen : τ) (host : σ) (filename : String),
      (∃ c, compileText registry.knows true filename text = .ok c) ∨
      ∃ o, compileText registry.knows true filename text = .error o ∧
        runText registry capacity limit observe seen host filename text =
          ⟨.error ⟨o.phase, filename, .obstacle o⟩, seen, host⟩ := by
  refine ⟨fun known filename within => (ends_of_not_givesUp within).failsInOrder,
    fun known filename => failsIn_parsing_of_givesUp, ?_⟩
  intro σ τ registry capacity limit observe seen host filename
  cases made : compileText registry.knows true filename text with
  | ok c => exact .inl ⟨c, rfl⟩
  | error o =>
    refine .inr ⟨o, rfl, ?_⟩
    unfold runText
    rw [made]

theorem failures_in_order_sample :
    noted ") ; 1 $" = [⟨.unexpected .rparen, ⟨0, 0, 0⟩⟩] ∧
      FailsIn .reading (Registry.builtins Memory.channel).knows "sample" ") ; 1 $" := by
  have outcome : (match Item.parseAll (.ofStream (TokenStream.ofText ") ; 1 $")) with
      | .abandoned .limit _ => false
      | _ => true) = true := by
    decide +kernel
  have within : ¬ GivesUp ") ; 1 $" := by
    intro up
    obtain ⟨s, limit⟩ := up
    rw [limit] at outcome
    cases outcome
  have lexed : tokenize ") ; 1 $" = .error ⟨.unknownCharacter '$', ⟨6, 0, 6⟩⟩ := by
    decide +kernel
  have order := (failures_in_order ") ; 1 $").1
    (Registry.builtins Memory.channel).knows "sample" within
  exact ⟨by decide +kernel, order.reading.mpr ⟨_, lexed⟩⟩

end Program

end Tally

import Tally.Proofs.Grammar.Straight

namespace Tally

open Grammar

namespace ReadingState

variable {s s' s'' : ReadingState} {es es' : List ParseError} {m n : Nat}

/-- Errors at tokens in their order, the last one first; none is behind the next `n` tokens. -/
inductive Trail (s : ReadingState) : List ParseError → Nat → Prop where
  | nil (n : Nat) : Trail s [] n
  | cons {e : ParseError} {es : List ParseError} {m n : Nat}
    (place : e.position = (s.drop m).current.start) (within : m ≤ n) (before : Trail s es m) :
    Trail s (e :: es) n

theorem Trail.mono (trail : s.Trail es m) (le : m ≤ n) : s.Trail es n := by
  cases trail with
  | nil => exact .nil n
  | cons place within before => exact .cons place (Nat.le_trans within le) before

/-- Where a reading is after `n` tokens, with these errors noted on the way. -/
structure Noted (s s' : ReadingState) (n : Nat) (es : List ParseError) : Prop where
  within : n ≤ s.tokens.length
  tokens : s'.tokens = s.tokens.drop n
  ending : s'.ending = s.ending
  errors : s'.errors = es ++ s.errors
  trail : s.Trail es n

structure Stopped (s s' : ReadingState) (es : List ParseError) : Prop where
  errors : s'.errors = es ++ s.errors
  trail : s.Trail es s.tokens.length

theorem current_of_noted (noted : s.Noted s' n es) (m : Nat) :
    (s'.drop m).current = (s.drop (n + m)).current := by
  have tokens : (s'.drop m).tokens = (s.drop (n + m)).tokens := by
    simp [ReadingState.drop, noted.tokens]
  unfold current
  rw [tokens, show (s'.drop m).ending = (s.drop (n + m)).ending from noted.ending]

theorem Noted.append (noted : s.Noted s' n es) (trail : s'.Trail es' m) :
    s.Trail (es' ++ es) (n + m) := by
  induction trail with
  | nil m => exact noted.trail.mono (Nat.le_add_right n m)
  | cons place within before ih =>
    exact .cons (place.trans (congrArg Token.start (current_of_noted noted _)))
      (Nat.add_le_add_left within n) ih

theorem Noted.length (noted : s.Noted s' n es) : n + s'.tokens.length = s.tokens.length := by
  have within := noted.within
  rw [noted.tokens, List.length_drop]
  omega

theorem Noted.trans (first : s.Noted s' m es) (second : s'.Noted s'' n es') :
    s.Noted s'' (m + n) (es' ++ es) where
  within := by
    have length := first.length
    have within := second.within
    omega
  tokens := by rw [second.tokens, first.tokens, List.drop_drop]
  ending := second.ending.trans first.ending
  errors := by rw [second.errors, first.errors, List.append_assoc]
  trail := first.append second.trail

theorem Noted.stopped (first : s.Noted s' m es) (second : s'.Stopped s'' es') :
    s.Stopped s'' (es' ++ es) where
  errors := by rw [second.errors, first.errors, List.append_assoc]
  trail := by
    rw [← first.length]
    exact first.append second.trail

theorem Noted.drop (within : n ≤ s.tokens.length) : s.Noted (s.drop n) n [] :=
  ⟨within, rfl, rfl, rfl, .nil n⟩

theorem Noted.note {e : ParseError} (within : n ≤ s.tokens.length)
    (place : e.position = (s.drop n).current.start) : s.Noted ((s.drop n).note e) n [e] :=
  ⟨within, rfl, rfl, rfl, .cons place (Nat.le_refl n) (.nil n)⟩

end ReadingState

/-- A limit is noted; a token cannot be read where the tokens end in a fault. -/
def Abandonment.Explained (ending : Ending) (es : List ParseError) : Abandonment → Prop
  | limit => es ≠ []
  | unreadable e => ending = .fault e

/-- What a reading notes, in its order. At most `spent` errors are paid by tokens before it. -/
def Outcome.Orderly {α : Type} (spent : Nat) (s : ReadingState) : Outcome α → Prop
  | value _ s' => ∃ n es, s.Noted s' n es ∧ (es = [] ∨ es.length < n + spent)
  | failed s' => ∃ n es, s.Noted s' n es ∧ es ≠ [] ∧ es.length ≤ max 1 (n + spent)
  | abandoned why s' => ∃ es, s.Stopped s' es ∧ why.Explained s.ending es ∧
      es.length ≤ max 1 (s.tokens.length + spent)

theorem Outcome.Orderly.after {α : Type} {o : Outcome α} {s s' : ReadingState} {n owed spent : Nat}
    {es : List ParseError} (later : o.Orderly owed s') (noted : s.Noted s' n es)
    (few : es = [] ∨ es.length < n + spent) (paid : es.length + owed ≤ n + spent) :
    o.Orderly spent s := by
  have length := noted.length
  -- where nothing was owed and nothing passed over, one more error is paid
  have one : es.length < max 1 (n + spent) := by
    rcases few with rfl | few
    · exact Nat.lt_of_lt_of_le Nat.one_pos (Nat.le_max_left _ _)
    · omega
  match o, later with
  | value a s'', ⟨m, es', noted', few'⟩ =>
    refine ⟨n + m, es' ++ es, noted.trans noted', ?_⟩
    rcases few' with rfl | few'
    · rw [List.nil_append]
      exact few.imp_right fun few => by omega
    · right
      rw [List.length_append]
      omega
  | failed s'', ⟨m, es', noted', nonempty, few'⟩ =>
    refine ⟨n + m, es' ++ es, noted.trans noted', fun none => nonempty ?_, ?_⟩
    · exact (List.append_eq_nil_iff.mp none).1
    · rw [List.length_append]
      omega
  | abandoned why s'', ⟨es', stopped, explained, few'⟩ =>
    refine ⟨es' ++ es, noted.stopped stopped, ?_, ?_⟩
    · cases why with
      | limit => exact fun none => explained (List.append_eq_nil_iff.mp none).1
      | unreadable e => exact noted.ending.symm.trans explained
    · rw [List.length_append]
      omega

namespace Reading

variable {α β : Type} {r : Reading α} {post : α → List Token → Token.Kind → Prop}
  {blamed : List Token → Token.Kind → Prop} {spent : Nat}

def Orderly (spent : Nat) (r : Reading α) : Prop :=
  ∀ s : ReadingState, s.Readable → (r s).Orderly spent s

theorem Straight.orderly (straight : ∀ at_, r.Straight at_ blamed) : r.Orderly 0 := by
  intro s readable
  cases straight s.current.start s readable with
  | value a n within same =>
    rw [same s (.refl n s)]
    exact ⟨n, [], .drop within, .inl rfl⟩
  | failed cause n within noLimit before same =>
    rw [same s (.refl n s)]
    exact ⟨n, [_], .note within rfl, List.cons_ne_nil _ _, Nat.le_max_left _ _⟩
  | limit cause p s' isLimit ends noted at_token =>
    rw [ends]
    refine ⟨[⟨cause, p⟩], ⟨noted, ?_⟩, List.cons_ne_nil _ _, Nat.le_max_left _ _⟩
    rcases at_token with here | ⟨n, within, there⟩
    · exact .cons (m := 0) here (Nat.zero_le _) (.nil 0)
    · exact .cons there within (.nil n)
  | unreadable e s' ends noted fault =>
    rw [ends]
    exact ⟨[], ⟨noted, .nil _⟩, fault, Nat.zero_le _⟩

theorem Orderly.bind {f : α → Reading β} (first : r.Orderly spent) (read : r.Reads post)
    (rest : ∀ a, (f a).Orderly 0) : (r >>= f).Orderly spent := by
  intro s readable
  have here := first s readable
  have reads := read s readable
  cases outcome : r s with
  | failed s' =>
    rw [outcome] at here
    rw [bind_of_failed outcome]
    exact here
  | abandoned why s' =>
    rw [outcome] at here
    rw [bind_of_abandoned outcome]
    exact here
  | value a s' =>
    rw [outcome] at here reads
    rw [bind_of_value outcome]
    obtain ⟨n, es, noted, few⟩ := here
    refine (rest a s' reads.1).after noted few ?_
    rcases few with rfl | few
    · exact Nat.zero_le _
    · exact Nat.le_of_lt few

theorem Orderly.pure {a : α} : (pure a : Reading α).Orderly 0 := by
  have straight (at_ : Position) : Straight (Pure.pure a) at_ fun _ _ => True := .pure
  exact Straight.orderly straight

theorem advance_orderly : advance.Orderly 0 := by
  have straight (at_ : Position) : advance.Straight at_ fun _ _ => True := advance_straight
  exact Straight.orderly straight

theorem take_orderly (kind : Token.Kind) : (take kind).Orderly 0 := by
  have straight (at_ : Position) : (take kind).Straight at_ fun _ _ => True :=
    take_straight kind fun _ => trivial
  exact Straight.orderly straight

theorem Orderly.map {g : α → β} (first : r.Orderly spent) (read : r.Reads post) :
    (g <$> r).Orderly spent := first.bind read fun _ => .pure

theorem Orderly.currentKind {f : Token.Kind → Reading β} (rest : ∀ kind, (f kind).Orderly spent) :
    (currentKind >>= f).Orderly spent := fun s readable => rest s.current.kind s readable

theorem Orderly.take {kind : Token.Kind} (real : kind ≠ .eof) {f : Token → Reading β}
    (rest : ∀ t, (f t).Orderly 1) : (take kind >>= f).Orderly 0 := by
  intro s readable
  have straight (at_ : Position) : (Reading.take kind).Straight at_ fun _ _ => True :=
    take_straight kind fun _ => trivial
  have here := Straight.orderly straight s readable
  cases straight s.current.start s readable with
  | value t n within same =>
    have value := same s (.refl n s)
    obtain ⟨readable', one, _⟩ := (take_reads real).of_value readable value
    have length := congrArg List.length one
    rw [List.length_take, Nat.min_eq_left within] at length
    rw [bind_of_value value]
    exact (rest t _ readable').after (.drop within) (.inl rfl) (Nat.le_of_eq length.symm)
  | failed cause n within noLimit before same =>
    rw [same s (.refl n s)] at here
    rw [bind_of_failed (same s (.refl n s))]
    exact here
  | limit cause p s' isLimit ends noted at_token =>
    rw [ends] at here
    rw [bind_of_abandoned ends]
    exact here
  | unreadable e s' ends noted fault =>
    rw [ends] at here
    rw [bind_of_abandoned ends]
    exact here

end Reading

section

variable {α β : Type} {s s' : ReadingState}

/-- A round that goes on passes over some token, and notes no more errors than it passes over
tokens. No round fails, and a round that ends the loop stays where it is. -/
def Outcome.Advances (s : ReadingState) : Outcome (α ⊕ β) → Prop
  | value (.inl _) s' => s'.Readable ∧ ∃ n es, s.Noted s' n es ∧ 0 < n ∧ es.length ≤ n
  | value (.inr _) s' => s' = s
  | failed _ => False
  | abandoned why s' => ∃ es, s.Stopped s' es ∧ why.Explained s.ending es ∧
      es.length ≤ s.tokens.length

/-- A whole loop never fails, and notes no more errors than it passes over tokens. -/
def Outcome.Paced (s : ReadingState) : Outcome β → Prop
  | value _ s' => ∃ n es, s.Noted s' n es ∧ es.length ≤ n
  | failed _ => False
  | abandoned why s' => ∃ es, s.Stopped s' es ∧ why.Explained s.ending es ∧
      es.length ≤ s.tokens.length

theorem Outcome.Paced.orderly {o : Outcome β} (paced : o.Paced s) : o.Orderly 1 s := by
  match o, paced with
  | value b s', ⟨n, es, noted, few⟩ => exact ⟨n, es, noted, .inr (Nat.lt_succ_of_le few)⟩
  | abandoned why s', ⟨es, stopped, explained, few⟩ =>
    refine ⟨es, stopped, explained, ?_⟩
    exact Nat.le_trans few (Nat.le_trans (Nat.le_succ _) (Nat.le_max_right _ _))

theorem Outcome.Paced.after {o : Outcome β} {n : Nat} {es : List ParseError} (later : o.Paced s')
    (noted : s.Noted s' n es) (few : es.length ≤ n) : o.Paced s := by
  have length := noted.length
  match o, later with
  | value b s'', ⟨m, es', noted', few'⟩ =>
    refine ⟨n + m, es' ++ es, noted.trans noted', ?_⟩
    rw [List.length_append]
    omega
  | abandoned why s'', ⟨es', stopped, explained, few'⟩ =>
    refine ⟨es' ++ es, noted.stopped stopped, ?_, ?_⟩
    · cases why with
      | limit => exact fun none => explained (List.append_eq_nil_iff.mp none).1
      | unreadable e => exact noted.ending.symm.trans explained
    · rw [List.length_append]
      omega

/-- Rounds one after another, until one of them ends the loop. -/
inductive Reading.Repeats (step : α → Reading (α ⊕ β)) : α → ReadingState → Outcome β → Prop where
  | value {a : α} {b : β} {s s' : ReadingState} (round : step a s = .value (.inr b) s') :
    Repeats step a s (.value b s')
  | failed {a : α} {s s' : ReadingState} (round : step a s = .failed s') :
    Repeats step a s (.failed s')
  | abandoned {a : α} {s s' : ReadingState} {why : Abandonment}
    (round : step a s = .abandoned why s') : Repeats step a s (.abandoned why s')
  | next {a a' : α} {s s' : ReadingState} {o : Outcome β} (round : step a s = .value (.inl a') s')
    (more : Repeats step a' s' o) : Repeats step a s o

theorem Reading.iterate_paced {step : α → Reading (α ⊕ β)}
    (rounds : ∀ a s, s.Readable → (step a s).Advances s) (a : α) (s : ReadingState)
    (readable : s.Readable) :
    Repeats step a s (iterate a step s) ∧ (iterate a step s).Paced s := by
  induction a, s using Reading.iterate.induct step with
  | case1 a s b s' outcome =>
    have here := rounds a s readable
    rw [outcome] at here
    rw [Reading.iterate, outcome]
    obtain rfl : s' = s := here
    exact ⟨.value outcome, 0, [], .drop (Nat.zero_le _), Nat.le_refl 0⟩
  | case2 a s a' s' outcome shorter ih =>
    have here := rounds a s readable
    rw [outcome] at here
    obtain ⟨readable', n, es, noted, _, few⟩ := here
    obtain ⟨repeats, paced⟩ := ih readable'
    rw [Reading.iterate, outcome]
    dsimp only
    rw [if_pos shorter]
    exact ⟨.next outcome repeats, paced.after noted few⟩
  | case3 a s a' s' outcome stuck =>
    have here := rounds a s readable
    rw [outcome] at here
    obtain ⟨_, n, es, noted, some, _⟩ := here
    have shorter : s'.count < s.count := by
      have length := noted.length
      rw [s'.count_eq, s.count_eq]
      omega
    exact absurd shorter stuck
  | case4 a s s' outcome =>
    have here := rounds a s readable
    rw [outcome] at here
    exact here.elim
  | case5 a s why s' outcome =>
    have here := rounds a s readable
    rw [outcome] at here
    rw [Reading.iterate, outcome]
    exact ⟨.abandoned outcome, here⟩

end

theorem ReadingState.Noted.drop_min (s : ReadingState) (n : Nat) :
    s.Noted (s.drop n) (min n s.tokens.length) [] where
  within := Nat.min_le_right _ _
  tokens := by
    rcases Nat.le_total n s.tokens.length with within | beyond
    · rw [Nat.min_eq_left within]
      rfl
    · rw [Nat.min_eq_right beyond, List.drop_length]
      exact List.drop_eq_nil_of_le beyond
  ending := rfl
  errors := rfl
  trail := .nil _

/-- Going on after a fault notes nothing. It may stay only at the end or where a block is closed. -/
def Outcome.Resumes (inBlock : Bool) (s : ReadingState) : Outcome Unit → Prop
  | value _ s' => s'.Readable ∧ ∃ n, s.Noted s' n [] ∧
      (n = 0 → s.tokens = [] ∨ inBlock = true ∧ s.current.kind = .rbrace)
  | failed _ => False
  | abandoned why s' => s.Stopped s' [] ∧ why.Explained s.ending []

theorem recover_resumes (inBlock : Bool) {s : ReadingState} (readable : s.Readable) :
    (recover inBlock s).Resumes inBlock s := by
  have dropped (n : Nat) (some : s.tokens ≠ []) : (Reading.drop (n + 1) s).Resumes inBlock s := by
    rcases Reading.drop_cases (n + 1) readable with ⟨e, fault, cut⟩ | ⟨whole, readable', _⟩
    · rw [cut]
      exact ⟨⟨rfl, .nil _⟩, fault⟩
    · rw [whole]
      refine ⟨readable', _, .drop_min s (n + 1), fun none => ?_⟩
      have length := List.length_pos_iff.mpr some
      omega
  unfold recover
  split
  · rename_i none
    exact ⟨readable, 0, .drop (Nat.zero_le _), fun _ => .inl none⟩
  · rename_i t ts tokens
    have some : s.tokens ≠ [] := tokens ▸ List.cons_ne_nil t ts
    have current : s.current = t := by
      unfold ReadingState.current
      rw [tokens]
    split
    · exact dropped 0 some
    split
    · rename_i closes
      exact ⟨readable, 0, .drop (Nat.zero_le _), fun _ => .inr ⟨closes.2, current ▸ closes.1⟩⟩
    · exact dropped _ some

namespace Reading

variable {α : Type} {item : Reading α} {stops : Token.Kind → Prop} [DecidablePred stops]
  {inBlock : Bool} {before : List α} {s s' s'' : ReadingState}

theorem sequenceRound_stop (stop : stops s.current.kind) :
    sequenceRound stops inBlock item before s = .value (.inr before.reverse) s := by
  change (if stops s.current.kind then pure (.inr before.reverse) else _ :
    Reading (List α ⊕ List α)) s = _
  rw [if_pos stop]
  rfl

theorem sequenceRound_goesOn (goesOn : ¬ stops s.current.kind) :
    sequenceRound stops inBlock item before s = match item s with
      | .value a s' => .value (.inl (a :: before)) s'
      | .failed s' => (recover inBlock >>= fun _ => pure (.inl before)) s'
      | .abandoned why s' => .abandoned why s' := by
  change (if stops s.current.kind then _ else
    .inl <$> orElse ((· :: before) <$> item) (do recover inBlock; return before) :
      Reading (List α ⊕ List α)) s = _
  rw [if_neg goesOn]
  simp only [Functor.map, bind, orElse, pure, Function.comp]
  cases item s with
  | value a s' => rfl
  | abandoned why s' => rfl
  | failed s' =>
    dsimp only
    cases recover inBlock s' <;> rfl

theorem sequenceRound_advances {one : α → List Token → Token.Kind → Prop}
    (orderly : item.Orderly 0) (read : item.Reads one) (nonempty : ∀ a us k, one a us k → us ≠ [])
    (ends : stops .eof) (closes : inBlock = true → stops .rbrace) (before : List α)
    (s : ReadingState) (readable : s.Readable) :
    (sequenceRound stops inBlock item before s).Advances s := by
  by_cases stop : stops s.current.kind
  · rw [sequenceRound_stop stop]
    exact rfl
  have here := orderly s readable
  have reads := read s readable
  have some : 0 < s.tokens.length := by
    refine List.length_pos_iff.mpr fun none => stop ?_
    rw [s.currentKind_eq, none]
    exact ends
  rw [sequenceRound_goesOn stop]
  cases outcome : item s with
  | value a s' =>
    rw [outcome] at here reads
    obtain ⟨n, es, noted, few⟩ := here
    refine ⟨reads.1, n, es, noted, ?_, ?_⟩
    · rcases few with rfl | few
      · rcases reads.2 with faulted | ⟨us, passes, fits⟩
        · exact absurd faulted (ReadingState.not_faulted noted.errors)
        · have some := List.length_pos_iff.mpr (nonempty a us _ fits)
          have split := congrArg List.length passes.tokens
          have length := noted.length
          rw [List.length_append] at split
          omega
      · exact Nat.zero_lt_of_lt few
    · rcases few with rfl | few
      · exact Nat.zero_le n
      · exact Nat.le_of_lt few
  | abandoned why s' =>
    rw [outcome] at here
    obtain ⟨es, stopped, explained, few⟩ := here
    exact ⟨es, stopped, explained, by omega⟩
  | failed s' =>
    rw [outcome] at here reads
    obtain ⟨n, es, noted, _, few⟩ := here
    have length := noted.length
    have resumes := recover_resumes inBlock reads.1
    cases resumed : recover inBlock s' with
    | value u s'' =>
      rw [resumed] at resumes
      obtain ⟨readable', m, noted', stays⟩ := resumes
      dsimp only
      rw [bind_of_value resumed]
      -- what fails where it begins stands neither at the end nor where the block is closed
      have least : 0 < n + m := by
        refine Nat.pos_of_ne_zero fun none => ?_
        obtain ⟨rfl, rfl⟩ := Nat.add_eq_zero_iff.mp none
        rcases stays rfl with finished | ⟨inside, brace⟩
        · rw [finished, List.length_nil] at length
          omega
        · have same : s'.current = s.current := ReadingState.current_of_noted noted 0
          rw [same] at brace
          exact stop (brace ▸ closes inside)
      refine ⟨readable', n + m, es, noted.trans noted', least, ?_⟩
      omega
    | failed s'' =>
      rw [resumed] at resumes
      exact resumes.elim
    | abandoned why s'' =>
      rw [resumed] at resumes
      obtain ⟨stopped, explained⟩ := resumes
      dsimp only
      rw [bind_of_abandoned resumed]
      refine ⟨es, noted.stopped stopped, ?_, by omega⟩
      cases why with
      | limit => exact absurd rfl explained
      | unreadable e => exact noted.ending.symm.trans explained

end Reading

end Tally

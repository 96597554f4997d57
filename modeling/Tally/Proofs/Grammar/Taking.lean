import Tally.Proofs.Grammar.Passing

namespace Tally

open Grammar

def ParseFault.isLimit : ParseFault → Bool
  | statementTooDeep | expressionTooDeep | expressionTooHigh => true
  | expected .. | unexpected _ => false

namespace ReadingState

variable (s : ReadingState)

theorem drop_drop (m n : Nat) : (s.drop m).drop n = s.drop (m + n) := by
  simp only [ReadingState.drop, List.drop_drop, Nat.sub_sub]

theorem tokens_drop {us rest : List Token} (split : s.tokens = us ++ rest) :
    (s.drop us.length).tokens = rest := by
  simp [ReadingState.drop, split]

end ReadingState

/-- Either `o` is as foretold, or the text is abandoned at a nesting limit, which is the only error
besides the `noted` ones; this may be only where `limited` holds. -/
def Outcome.OrLimit {α : Type} (o foretold : Outcome α) (limited : Prop)
    (noted : List ParseError) : Prop :=
  o = foretold ∨
    limited ∧ ∃ s e, o = .abandoned .limit s ∧ s.errors = e :: noted ∧ e.cause.isLimit = true

namespace Reading

variable {α β : Type} {r : Reading α} {limited : Prop} {a : α} {b : β} {us vs : List Token}
  {k : Token.Kind}

/-- From these tokens of a text without faults, with this kind of token next, the value is read,
whatever was noted before. -/
def Takes (r : Reading α) (limited : Prop) (a : α) (us : List Token) (k : Token.Kind) : Prop :=
  ∀ (s : ReadingState) (rest : List Token), (∃ p, s.ending = .eof p) → s.tokens = us ++ rest →
    firstKind rest .eof = k → (r s).OrLimit (.value a (s.drop us.length)) limited s.errors

theorem Takes.pure : Takes (pure a) limited a [] k := fun _ _ _ _ _ => .inl rfl

theorem Takes.bind {f : α → Reading β} (first : r.Takes limited a us (firstKind vs k))
    (rest : (f a).Takes limited b vs k) : (r >>= f).Takes limited b (us ++ vs) k := by
  intro s behind faultless split next
  rw [List.append_assoc] at split
  have here := first s (vs ++ behind) faultless split (by rw [firstKind_append, next])
  rcases here with value | ⟨reached, s', e, limit, noted⟩
  · rw [bind_of_value value]
    have there := rest (s.drop us.length) behind faultless (s.tokens_drop split) next
    rwa [s.drop_drop, ← List.length_append] at there
  · rw [bind_of_abandoned limit]
    exact .inr ⟨reached, s', e, rfl, noted⟩

theorem Takes.bindLast {f : α → Reading β} (first : r.Takes limited a us k)
    (rest : (f a).Takes limited b [] k) : (r >>= f).Takes limited b us k := by
  have whole := Takes.bind first rest
  rwa [List.append_nil] at whole

theorem Takes.map (g : α → β) (first : r.Takes limited a us k) :
    (g <$> r).Takes limited (g a) us k := first.bindLast .pure

theorem Takes.current {f : Token → Reading β}
    (rest : ∀ t, t.Heads us k → (f t).Takes limited b us k) :
    (current >>= f).Takes limited b us k := by
  intro s behind faultless split next
  have same : s.tokens = us ++ (s.drop us.length).tokens := by rw [s.tokens_drop split, split]
  have heads := ReadingState.heads_of_split same
  rw [ReadingState.currentKind_eq, s.tokens_drop split, next] at heads
  exact rest s.current heads s behind faultless split next

theorem Takes.currentKind {f : Token.Kind → Reading β}
    (rest : (f (firstKind us k)).Takes limited b us k) :
    (currentKind >>= f).Takes limited b us k := by
  intro s behind faultless split next
  have same : s.current.kind = firstKind us k := by
    rw [s.currentKind_eq, split, firstKind_append, next]
  have here := rest s behind faultless split next
  rwa [← same] at here

theorem advance_takes (t : Token) : advance.Takes limited () [t] k := by
  intro s behind faultless split next
  obtain ⟨p, ending⟩ := faultless
  have whole : advance s = .value () (s.drop 1) := by
    simp [advance, drop, ReadingState.drop, ending]
  exact .inl whole

theorem Takes.pass (t : Token) {r : Reading β} (rest : r.Takes limited b us k) :
    (advance >>= fun _ => r).Takes limited b (t :: us) k := (advance_takes t).bind rest

theorem take_takes {t : Token} {kind : Token.Kind} (same : t.kind = kind) :
    (take kind).Takes limited t [t] k := by
  refine Takes.current fun u heads => ?_
  obtain rfl := heads.2 t rfl
  rw [if_pos same]
  exact .pass t .pure

theorem abandon_takes {cause : ParseFault} (limit : cause.isLimit = true) (at_ : Position)
    (reached : limited) : (abandon cause at_).Takes limited a us k :=
  fun s _ _ _ _ => .inr ⟨reached, s.note ⟨cause, at_⟩, ⟨cause, at_⟩, rfl, rfl, limit⟩

theorem Takes.orElse (first : r.Takes limited a us k) (rescue : Reading α) :
    (r.orElse rescue).Takes limited a us k := by
  intro s behind faultless split next
  unfold Reading.orElse
  rcases first s behind faultless split next with value | ⟨reached, s', e, limit, noted⟩
  · rw [value]
    exact .inl rfl
  · rw [limit]
    exact .inr ⟨reached, s', e, rfl, noted⟩

theorem Takes.last {step : α → Reading (α ⊕ β)} (round : (step a).Takes limited (.inr b) us k) :
    (iterate a step).Takes limited b us k := by
  intro s behind faultless split next
  rw [iterate]
  rcases round s behind faultless split next with value | ⟨reached, s', e, limit, noted⟩
  · rw [value]
    exact .inl rfl
  · rw [limit]
    exact .inr ⟨reached, s', e, rfl, noted⟩

theorem Takes.more {step : α → Reading (α ⊕ β)} {a' : α}
    (round : (step a).Takes limited (.inl a') us (firstKind vs k)) (some : us ≠ [])
    (rest : (iterate a' step).Takes limited b vs k) :
    (iterate a step).Takes limited b (us ++ vs) k := by
  intro s behind faultless split next
  rw [List.append_assoc] at split
  rw [iterate]
  rcases round s (vs ++ behind) faultless split (by rw [firstKind_append, next])
    with value | ⟨reached, s', e, limit, noted⟩
  · rw [value]
    have shorter : (s.drop us.length).count < s.count := by
      rw [(s.drop us.length).count_eq, s.count_eq, s.tokens_drop split, split]
      have := List.length_pos_iff.mpr some
      simp only [List.length_append]
      omega
    dsimp only
    rw [if_pos shorter]
    have there := rest (s.drop us.length) behind faultless (s.tokens_drop split) next
    rwa [s.drop_drop, ← List.length_append] at there
  · rw [limit]
    exact .inr ⟨reached, s', e, rfl, noted⟩

end Reading

end Tally

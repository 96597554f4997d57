import Tally.Proofs.Grammar.Straight

namespace Tally

open Grammar

structure ReadingState.Lexed (s : ReadingState) : Prop where
  tokens : ∀ t ∈ s.tokens, t.kind ≠ .eof
  ending : ∃ p, s.ending = .eof p

namespace ReadingState.Lexed

variable {s : ReadingState}

theorem readable (lexed : s.Lexed) : s.Readable := ⟨lexed.tokens, fun _ => lexed.ending⟩

theorem drop (lexed : s.Lexed) (n : Nat) : (s.drop n).Lexed :=
  ⟨fun t member => lexed.tokens t (List.mem_of_mem_drop member), lexed.ending⟩

end ReadingState.Lexed

namespace Reading

variable {α β : Type}

/-- Where a reading notes its first error, if it does. All states that are alike up to there note
the same. -/
inductive FirstAt (r : Reading α) (blamed : List Token → Token.Kind → Prop) (s : ReadingState) :
    Prop where
  | none (a : α) (n : Nat) (within : n ≤ s.tokens.length)
    (same : ∀ s', s.Alike n s' → r s' = .value a (s'.drop n))
  | error (cause : ParseFault) (n : Nat) (within : n ≤ s.tokens.length)
    (noLimit : cause.isLimit = false) (before : blamed (s.tokens.take n) (s.drop n).current.kind)
    (same : ∀ s', s'.Lexed → s.Alike n s' →
      ⟨cause, (s'.drop n).current.start⟩ :: s'.errors <:+ (r s').errors)
  | limit (e : ParseError) (isLimit : e.cause.isLimit = true)
    (noted : e :: s.errors <:+ (r s).errors)

def Grows (r : Reading α) : Prop := ∀ s : ReadingState, s.Readable → s.errors <:+ (r s).errors

/-- The tokens before the first error that is noted satisfy `blamed`. -/
structure Blames (r : Reading α) (blamed : List Token → Token.Kind → Prop) : Prop where
  grows : r.Grows
  first : ∀ s : ReadingState, s.Lexed → r.FirstAt blamed s

theorem Reads.grows {r : Reading α} {post : α → List Token → Token.Kind → Prop}
    (read : r.Reads post) :
    r.Grows := fun s readable => (read s readable).suffix

variable {r : Reading α} {blamed : List Token → Token.Kind → Prop}
  {post : α → List Token → Token.Kind → Prop} {s : ReadingState} {n : Nat}

theorem Straight.grows {at_ : Position} (straight : r.Straight at_ blamed) : r.Grows := by
  intro s readable
  cases straight s readable with
  | value a n within same =>
    rw [same s (.refl n s)]
    exact List.suffix_refl _
  | failed cause n within noLimit before same =>
    rw [same s (.refl n s)]
    exact List.suffix_cons _ _
  | limit cause p s' isLimit ends noted _ =>
    rw [ends, Outcome.errors, noted]
    exact List.suffix_cons _ _
  | unreadable e s' ends noted fault =>
    have same : (r s).errors = s.errors := by rw [ends, Outcome.errors, noted]
    exact same ▸ List.suffix_refl _

theorem Straight.blames {at_ : Position} (straight : r.Straight at_ blamed) : r.Blames blamed := by
  refine ⟨straight.grows, fun s lexed => ?_⟩
  cases straight s lexed.readable with
  | value a n within same => exact .none a n within same
  | failed cause n within noLimit before same =>
    refine .error cause n within noLimit before fun s' _ alike => ?_
    rw [same s' alike]
    exact List.suffix_refl _
  | limit cause p s' isLimit ends noted _ =>
    refine .limit ⟨cause, p⟩ isLimit ?_
    rw [ends, ← noted]
    exact List.suffix_refl _
  | unreadable e s' ends noted fault =>
    obtain ⟨p, ending⟩ := lexed.ending
    cases fault.symm.trans ending

theorem Blames.mono {blamed' : List Token → Token.Kind → Prop} (blames : r.Blames blamed)
    (weaker : ∀ us k, blamed us k → blamed' us k) : r.Blames blamed' := by
  refine ⟨blames.grows, fun s lexed => ?_⟩
  cases blames.first s lexed with
  | none a n within same => exact .none a n within same
  | error cause n within noLimit before same =>
    exact .error cause n within noLimit (weaker _ _ before) same
  | limit e isLimit noted => exact .limit e isLimit noted

theorem FirstAt.extend {r' : Reading β} (first : r.FirstAt blamed s) (lexed : s.Lexed)
    (grows : ∀ s', s'.Readable → (r s').errors <:+ (r' s').errors)
    (goesOn : ∀ a n, n ≤ s.tokens.length → (∀ s', s.Alike n s' → r s' = .value a (s'.drop n)) →
      r'.FirstAt blamed s) : r'.FirstAt blamed s := by
  cases first with
  | none a n within same => exact goesOn a n within same
  | error cause n within noLimit before same =>
    exact .error cause n within noLimit before fun s' lexed' alike =>
      (same s' lexed' alike).trans (grows s' lexed'.readable)
  | limit e isLimit noted => exact .limit e isLimit (noted.trans (grows s lexed.readable))

theorem FirstAt.after {r' : Reading α} {blamed' : List Token → Token.Kind → Prop}
    (within : n ≤ s.tokens.length) (goes : ∀ s', s.Alike n s' → r s' = r' (s'.drop n))
    (later : r'.FirstAt blamed' (s.drop n))
    (weaker : ∀ m, blamed' ((s.drop n).tokens.take m) ((s.drop n).drop m).current.kind →
      blamed (s.tokens.take n ++ (s.drop n).tokens.take m) ((s.drop n).drop m).current.kind) :
    r.FirstAt blamed s := by
  cases later with
  | none a m within' same =>
    refine .none a (n + m) (s.drop_le within within') fun s' alike => ?_
    rw [goes s' (alike.mono (Nat.le_add_right n m)), ← s'.drop_drop]
    exact same _ alike.drop
  | error cause m within' noLimit before same =>
    refine .error cause (n + m) (s.drop_le within within') noLimit ?_ fun s' lexed alike => ?_
    · rw [← s.take_add, ← s.drop_drop]
      exact weaker m before
    · rw [goes s' (alike.mono (Nat.le_add_right n m)), ← s'.drop_drop]
      exact same _ (lexed.drop n) alike.drop
  | limit e isLimit noted =>
    refine .limit e isLimit ?_
    rw [goes s (.refl n s)]
    exact noted

theorem Blames.pure {a : α} : Blames (pure a) blamed :=
  (Straight.pure : Straight (Pure.pure a) Position.start blamed).blames

theorem take_blames (kind : Token.Kind) (missing : ∀ k, blamed [] k) : (take kind).Blames blamed :=
  (take_straight kind missing : Straight _ Position.start _).blames

theorem Reads.errors_bind {f : α → Reading β} (first : r.Reads post) (rest : ∀ a, (f a).Grows)
    (readable : s.Readable) : (r s).errors <:+ ((r >>= f) s).errors := by
  have here := first s readable
  cases outcome : r s with
  | value a s' =>
    rw [outcome] at here
    rw [bind_of_value outcome]
    exact rest a s' here.1
  | failed s' =>
    rw [bind_of_failed outcome]
    exact List.suffix_refl _
  | abandoned why s' =>
    rw [bind_of_abandoned outcome]
    exact List.suffix_refl _

theorem Blames.bind {f : α → Reading β} (first : r.Blames blamed) (read : r.Reads post)
    (rest : ∀ a, (f a).Blames fun vs k => ∀ us, post a us (firstKind vs k) → blamed (us ++ vs) k) :
    (r >>= f).Blames blamed := by
  have grows {s : ReadingState} := read.errors_bind (s := s) fun a => (rest a).grows
  refine ⟨fun s readable => (first.grows s readable).trans (grows readable), fun s lexed => ?_⟩
  refine (first.first s lexed).extend lexed (fun _ => grows) fun a n within same => ?_
  obtain ⟨_, fits⟩ := read.of_value lexed.readable (same s (.refl n s))
  refine .after within (fun s' alike => bind_of_value (same s' alike))
    ((rest a).first _ (lexed.drop n)) fun m before => before _ ?_
  rwa [((s.drop n).heads_take m).1]

theorem Blames.map {g : α → β} (first : r.Blames blamed) (read : r.Reads post) :
    (g <$> r).Blames blamed := first.bind read fun _ => .pure

theorem FirstAt.congr {r' : Reading α} (first : r.FirstAt blamed s)
    (same : ∀ s', s'.current = s.current → r' s' = r s') : r'.FirstAt blamed s := by
  cases first with
  | none a n within outcome =>
    exact .none a n within fun s' alike => (same s' alike.current).trans (outcome s' alike)
  | error cause n within noLimit before outcome =>
    refine .error cause n within noLimit before fun s' lexed alike => ?_
    rw [same s' alike.current]
    exact outcome s' lexed alike
  | limit e isLimit noted =>
    refine .limit e isLimit ?_
    rwa [same s rfl]

theorem Blames.currentKind {f : Token.Kind → Reading β}
    (rest : ∀ kind, (f kind).Blames fun us k => firstKind us k = kind → blamed us k) :
    (currentKind >>= f).Blames blamed := by
  refine ⟨fun s readable => (rest s.current.kind).grows s readable, fun s lexed => ?_⟩
  have here := (rest s.current.kind).first s lexed
  have fits : (f s.current.kind).FirstAt blamed s := by
    cases here with
    | none a n within same => exact .none a n within same
    | error cause n within noLimit before same =>
      exact .error cause n within noLimit (before (s.heads_take n).1) same
    | limit e isLimit noted => exact .limit e isLimit noted
  refine fits.congr fun s' same => ?_
  rw [← same]
  rfl

theorem Blames.orElse {rescue : Reading α} (first : r.Blames blamed) (read : r.Reads post)
    (second : rescue.Grows) : (r.orElse rescue).Blames blamed := by
  have grows {s : ReadingState} (readable : s.Readable) :
      (r s).errors <:+ ((r.orElse rescue) s).errors := by
    have here := read s readable
    unfold Reading.orElse
    cases outcome : r s with
    | failed s' =>
      rw [outcome] at here
      exact second s' here.1
    | value | abandoned => exact List.suffix_refl _
  refine ⟨fun s readable => (first.grows s readable).trans (grows readable), fun s lexed => ?_⟩
  refine (first.first s lexed).extend lexed (fun _ => grows) fun a n within same => ?_
  refine .none a n within fun s' alike => ?_
  unfold Reading.orElse
  rw [same s' alike]

theorem Reads.errors_iterate {step : α → Reading (α ⊕ β)}
    {after : α → α ⊕ β → List Token → Token.Kind → Prop} (read : ∀ a, (step a).Reads (after a))
    (a : α) (readable : s.Readable) : (step a s).errors <:+ (Reading.iterate a step s).errors := by
  induction a, s using Reading.iterate.induct step with
  | case1 a s b s' outcome =>
    rw [Reading.iterate, outcome]
    exact List.suffix_refl _
  | case2 a s a' s' outcome shorter ih =>
    have here := read a s readable
    rw [outcome] at here
    have later := (read a' s' here.1).suffix
    rw [Reading.iterate, outcome]
    dsimp only
    rw [if_pos shorter]
    exact later.trans (ih here.1)
  | case3 a s a' s' outcome stuck =>
    rw [Reading.iterate, outcome]
    dsimp only
    rw [if_neg stuck]
    exact List.suffix_refl _
  | case4 a s s' outcome =>
    rw [Reading.iterate, outcome]
    exact List.suffix_refl _
  | case5 a s why s' outcome =>
    rw [Reading.iterate, outcome]
    exact List.suffix_refl _

theorem Blames.iterate (blamed : List Token → Token.Kind → Prop) {step : α → Reading (α ⊕ β)}
    {kept : α → List Token → Token.Kind → Prop} {after : β → List Token → Token.Kind → Prop}
    (read : ∀ a, (step a).Reads (Keeps kept after a))
    (round : ∀ a, (step a).Blames fun vs k =>
      ∀ us, kept a us (firstKind vs k) → blamed (us ++ vs) k) (a : α) :
    (Reading.iterate a step).Blames fun vs k =>
      ∀ us, kept a us (firstKind vs k) → blamed (us ++ vs) k := by
  have grows {s : ReadingState} (a : α) (readable : s.Readable) := Reads.errors_iterate read a readable
  refine ⟨fun s readable => ((round a).grows s readable).trans (grows a readable), ?_⟩
  intro s lexed
  induction length : s.tokens.length using Nat.strongRecOn generalizing a s with
  | ind length ih =>
    subst length
    refine ((round a).first s lexed).extend lexed (fun _ => grows a) fun next n within same => ?_
    obtain ⟨readable', fits⟩ := (read a).of_value lexed.readable (same s (.refl n s))
    cases next with
    | inr b =>
      refine .none b n within fun s' alike => ?_
      rw [Reading.iterate, same s' alike]
    | inl a' =>
      obtain ⟨some, keeps⟩ := fits
      obtain ⟨goes, shorter⟩ := iterate_goesOn within some same
      refine .after within goes (ih _ shorter a' _ (lexed.drop n) rfl) fun m before us invariant => ?_
      rw [← List.append_assoc]
      refine before _ ?_
      rw [firstKind_append, ((s.drop n).heads_take m).1] at invariant
      rw [((s.drop n).heads_take m).1]
      exact keeps us invariant

end Reading

end Tally

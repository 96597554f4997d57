import Tally.Program.Parsing
import Tally.Proofs.Grammar.Resolved

namespace Tally

open Grammar

/-- The end of a text is no token. Of a text that cannot be read to its end some token is left:
with the last one it is abandoned. -/
structure ReadingState.Readable (s : ReadingState) : Prop where
  tokens : ∀ t ∈ s.tokens, t.kind ≠ .eof
  ending : s.tokens = [] → ∃ p, s.ending = .eof p

namespace ReadingState

structure Faulted (s s' : ReadingState) : Prop where
  noted : ∃ e, e :: s.errors <:+ s'.errors
  ending : s'.ending = s.ending

structure Passes (s s' : ReadingState) (us : List Token) : Prop where
  errors : s'.errors = s.errors
  ending : s'.ending = s.ending
  tokens : s.tokens = us ++ s'.tokens

variable {s s' s'' : ReadingState} {us vs : List Token}

theorem currentKind_eq (s : ReadingState) : s.current.kind = firstKind s.tokens .eof := by
  unfold current
  cases s.tokens with
  | nil => cases s.ending <;> rfl
  | cons t ts => rfl

theorem eq_nil_or_cons (s : ReadingState) :
    s.tokens = [] ∨ s.tokens = s.current :: (s.drop 1).tokens := by
  cases tokens : s.tokens with
  | nil => exact .inl rfl
  | cons t ts =>
    right
    simp [current, ReadingState.drop, tokens]

theorem Readable.note (readable : s.Readable) (e : ParseError) : (s.note e).Readable :=
  ⟨readable.tokens, readable.ending⟩

theorem faulted_note (s : ReadingState) (e : ParseError) : s.Faulted (s.note e) :=
  ⟨⟨e, List.suffix_refl _⟩, rfl⟩

theorem Faulted.of_suffix (faulted : s.Faulted s') (later : s'.errors <:+ s''.errors)
    (ending : s''.ending = s'.ending) : s.Faulted s'' := by
  obtain ⟨e, noted⟩ := faulted.noted
  exact ⟨⟨e, noted.trans later⟩, ending.trans faulted.ending⟩

theorem Faulted.suffix (faulted : s.Faulted s') : s.errors <:+ s'.errors := by
  obtain ⟨e, noted⟩ := faulted.noted
  exact (List.suffix_cons e _).trans noted

theorem Faulted.trans (first : s.Faulted s') (second : s'.Faulted s'') : s.Faulted s'' :=
  first.of_suffix second.suffix second.ending

theorem Faulted.ne_nil (faulted : s.Faulted s') : s'.errors ≠ [] := by
  obtain ⟨e, noted⟩ := faulted.noted
  exact List.ne_nil_of_mem (noted.subset List.mem_cons_self)

theorem not_faulted (same : s'.errors = s.errors) : ¬ s.Faulted s' := by
  intro faulted
  obtain ⟨e, noted⟩ := faulted.noted
  have le := noted.length_le
  rw [same] at le
  exact Nat.not_succ_le_self _ le

theorem Passes.none (s : ReadingState) : s.Passes s [] := ⟨rfl, rfl, rfl⟩

theorem Passes.trans (first : s.Passes s' us) (second : s'.Passes s'' vs) :
    s.Passes s'' (us ++ vs) where
  errors := second.errors.trans first.errors
  ending := second.ending.trans first.ending
  tokens := by rw [first.tokens, second.tokens, List.append_assoc]

theorem Passes.suffix (passes : s.Passes s' us) : s.errors <:+ s'.errors :=
  passes.errors ▸ List.suffix_refl _

theorem Passes.faulted (first : s.Passes s' us) (later : s'.Faulted s'') : s.Faulted s'' := by
  obtain ⟨e, noted⟩ := later.noted
  rw [first.errors] at noted
  exact ⟨⟨e, noted⟩, later.ending.trans first.ending⟩

theorem Faulted.passes (faulted : s.Faulted s') (later : s'.Passes s'' us) : s.Faulted s'' :=
  faulted.of_suffix later.suffix later.ending

end ReadingState

/-- The token comes first among some tokens, or there are none and it comes next. -/
def Token.Heads (t : Token) (us : List Token) (k : Token.Kind) : Prop :=
  firstKind us k = t.kind ∧ ∀ u, us.head? = some u → u = t

theorem ReadingState.heads_of_split {s s' : ReadingState} {us : List Token}
    (split : s.tokens = us ++ s'.tokens) : s.current.Heads us s'.current.kind := by
  refine ⟨?_, fun u first => ?_⟩
  · rw [s.currentKind_eq, s'.currentKind_eq, split, firstKind_append]
  · rcases s.eq_nil_or_cons with none | some
    · rw [none] at split
      rw [(List.append_eq_nil_iff.mp split.symm).1] at first
      cases first
    · rw [split] at some
      have same := congrArg List.head? some
      rw [List.head?_append, first] at same
      exact Option.some.inj same

namespace Outcome

variable {α : Type}

def errors : Outcome α → List ParseError
  | value _ s => s.errors
  | failed s => s.errors
  | abandoned _ s => s.errors

/-- The tokens passed over since `s`, and the kind of the next one, fit the value. -/
def Reads (s : ReadingState) (post : α → List Token → Token.Kind → Prop) : Outcome α → Prop
  | value a s' => s'.Readable ∧ (s.Faulted s' ∨ ∃ us, s.Passes s' us ∧ post a us s'.current.kind)
  | failed s' => s'.Readable ∧ s.Faulted s'
  | abandoned .limit s' => s.Faulted s'
  | abandoned (.unreadable e) s' => s.ending = .fault e ∧ s.errors <:+ s'.errors

variable {s s' : ReadingState} {o : Outcome α} {post post' : α → List Token → Token.Kind → Prop}

theorem Reads.mono (h : o.Reads s post) (weaker : ∀ a us k, post a us k → post' a us k) :
    o.Reads s post' := by
  match o, h with
  | value a s', ⟨readable, .inl faulted⟩ => exact ⟨readable, .inl faulted⟩
  | value a s', ⟨readable, .inr ⟨us, passes, fits⟩⟩ =>
    exact ⟨readable, .inr ⟨us, passes, weaker a us _ fits⟩⟩
  | failed s', h => exact h
  | abandoned .limit s', h => exact h
  | abandoned (.unreadable e) s', h => exact h

theorem Reads.suffix (h : o.Reads s post) : s.errors <:+ o.errors := by
  match o, h with
  | value a s', ⟨_, .inl faulted⟩ => exact faulted.suffix
  | value a s', ⟨_, .inr ⟨us, passes, _⟩⟩ => exact passes.suffix
  | failed s', ⟨_, faulted⟩ => exact faulted.suffix
  | abandoned .limit s', faulted => exact ReadingState.Faulted.suffix faulted
  | abandoned (.unreadable e) s', ⟨_, suffix⟩ => exact suffix

theorem Reads.after_fault (h : o.Reads s' post) (faulted : s.Faulted s') : o.Reads s post' := by
  match o, h with
  | value a s'', ⟨readable, .inl later⟩ => exact ⟨readable, .inl (faulted.trans later)⟩
  | value a s'', ⟨readable, .inr ⟨us, passes, _⟩⟩ =>
    exact ⟨readable, .inl (faulted.passes passes)⟩
  | failed s'', ⟨readable, later⟩ => exact ⟨readable, faulted.trans later⟩
  | abandoned .limit s'', later => exact faulted.trans later
  | abandoned (.unreadable e) s'', ⟨fault, later⟩ =>
    exact ⟨faulted.ending.symm.trans fault, faulted.suffix.trans later⟩

theorem Reads.after {us : List Token} (passes : s.Passes s' us)
    (h : o.Reads s' fun a vs k => post a (us ++ vs) k) : o.Reads s post := by
  match o, h with
  | value a s'', ⟨readable, .inl faulted⟩ => exact ⟨readable, .inl (passes.faulted faulted)⟩
  | value a s'', ⟨readable, .inr ⟨vs, more, fits⟩⟩ =>
    exact ⟨readable, .inr ⟨us ++ vs, passes.trans more, fits⟩⟩
  | failed s'', ⟨readable, faulted⟩ => exact ⟨readable, passes.faulted faulted⟩
  | abandoned .limit s'', faulted => exact passes.faulted faulted
  | abandoned (.unreadable e) s'', ⟨fault, later⟩ =>
    exact ⟨passes.ending.symm.trans fault, passes.suffix.trans later⟩

theorem Reads.of_heads (h : o.Reads s fun a us k => s.current.Heads us k → post a us k) :
    o.Reads s post := by
  match o, h with
  | value a s', ⟨readable, .inl faulted⟩ => exact ⟨readable, .inl faulted⟩
  | value a s', ⟨readable, .inr ⟨us, passes, fits⟩⟩ =>
    exact ⟨readable, .inr ⟨us, passes, fits (ReadingState.heads_of_split passes.tokens)⟩⟩
  | failed s', h => exact h
  | abandoned .limit s', h => exact h
  | abandoned (.unreadable e) s', h => exact h

theorem Reads.abandoned {β : Type} {why : Abandonment}
    (h : (abandoned why s' : Outcome α).Reads s post) {after : β → List Token → Token.Kind → Prop} :
    (abandoned why s' : Outcome β).Reads s after := by
  cases why <;> exact h

end Outcome

namespace Reading

variable {α β : Type} {r : Reading α} {post : α → List Token → Token.Kind → Prop}
  {after : β → List Token → Token.Kind → Prop}

def Reads (r : Reading α) (post : α → List Token → Token.Kind → Prop) : Prop :=
  ∀ s : ReadingState, s.Readable → (r s).Reads s post

theorem Reads.mono {post' : α → List Token → Token.Kind → Prop} (h : r.Reads post)
    (weaker : ∀ a us k, post a us k → post' a us k) : r.Reads post' :=
  fun s readable => (h s readable).mono weaker

theorem Reads.pure {a : α} (h : ∀ k, post a [] k) : Reads (pure a) post :=
  fun s readable => ⟨readable, .inr ⟨[], .none s, h s.current.kind⟩⟩

theorem bind_of_value {f : α → Reading β} {s s' : ReadingState} {a : α}
    (outcome : r s = .value a s') :
    (r >>= f) s = f a s' := by
  simp only [bind, outcome]

theorem bind_of_failed {f : α → Reading β} {s s' : ReadingState} (outcome : r s = .failed s') :
    (r >>= f) s = .failed s' := by
  simp only [bind, outcome]

theorem bind_of_abandoned {f : α → Reading β} {s s' : ReadingState} {why : Abandonment}
    (outcome : r s = .abandoned why s') : (r >>= f) s = .abandoned why s' := by
  simp only [bind, outcome]

theorem Reads.bind {f : α → Reading β} (first : r.Reads post)
    (rest : ∀ a, (f a).Reads fun b vs k => ∀ us, post a us (firstKind vs k) → after b (us ++ vs) k) :
    (r >>= f).Reads after := by
  intro s readable
  have here := first s readable
  cases outcome : r s with
  | value a s' =>
    rw [bind_of_value outcome]
    rw [outcome] at here
    obtain ⟨readable', faulted | ⟨us, passes, fits⟩⟩ := here
    · exact (rest a s' readable').after_fault faulted
    · refine .after passes (.of_heads ((rest a s' readable').mono ?_))
      intro b vs k follows heads
      exact follows us (heads.1 ▸ fits)
  | failed s' =>
    rw [outcome] at here
    rw [bind_of_failed outcome]
    exact here
  | abandoned why s' =>
    rw [outcome] at here
    rw [bind_of_abandoned outcome]
    exact here.abandoned

theorem Reads.map {g : α → β} (first : r.Reads post)
    (rest : ∀ a us k, post a us k → after (g a) us k) : (g <$> r).Reads after := by
  refine first.bind fun a => .pure fun k us fits => ?_
  rw [List.append_nil]
  exact rest a us k fits

theorem fail_reads (cause : ParseFault) : (fail cause).Reads post :=
  fun s readable => ⟨readable.note _, s.faulted_note _⟩

theorem abandon_reads (cause : ParseFault) (at_ : Position) : (abandon cause at_).Reads post :=
  fun s _ => s.faulted_note _

theorem Reads.current {f : Token → Reading β}
    (rest : ∀ t, (f t).Reads fun b us k => t.Heads us k → after b us k) :
    (current >>= f).Reads after :=
  fun s readable => .of_heads (rest s.current s readable)

theorem Reads.currentKind {f : Token.Kind → Reading β}
    (rest : ∀ kind, (f kind).Reads fun b us k => firstKind us k = kind → after b us k) :
    (currentKind >>= f).Reads after := by
  refine fun s readable => .of_heads ((rest s.current.kind s readable).mono ?_)
  exact fun b us k follows heads => follows heads.1

theorem drop_cases (n : Nat) {s : ReadingState} (readable : s.Readable) :
    (∃ e, s.ending = .fault e ∧ drop n s = .abandoned (.unreadable e) (s.drop n)) ∨
      drop n s = .value () (s.drop n) ∧ (s.drop n).Readable ∧
        s.Passes (s.drop n) (s.tokens.take n) := by
  have passes : s.Passes (s.drop n) (s.tokens.take n) :=
    ⟨rfl, rfl, (List.take_append_drop n s.tokens).symm⟩
  have tokens : ∀ t ∈ (s.drop n).tokens, t.kind ≠ .eof :=
    fun t member => readable.tokens t (List.mem_of_mem_drop member)
  unfold drop
  dsimp only
  split
  · rename_i e _ fault
    exact .inl ⟨e, fault, rfl⟩
  · rename_i notCut
    refine .inr ⟨rfl, ⟨tokens, fun none => ?_⟩, passes⟩
    cases ending : (s.drop n).ending with
    | eof p => exact ⟨p, rfl⟩
    | fault e => exact absurd ending (notCut e none)

theorem drop_reads (n : Nat) : (drop n).Reads fun _ _ _ => True := by
  intro s readable
  rcases drop_cases n readable with ⟨e, fault, cut⟩ | ⟨whole, readable', passes⟩
  · rw [cut]
    exact ⟨fault, List.suffix_refl _⟩
  · rw [whole]
    exact ⟨readable', .inr ⟨_, passes, trivial⟩⟩

theorem advance_reads : advance.Reads fun _ us k => (∃ t, us = [t]) ∨ (us = [] ∧ k = .eof) := by
  intro s readable
  unfold advance
  rcases drop_cases 1 readable with ⟨e, fault, cut⟩ | ⟨whole, readable', passes⟩
  · rw [cut]
    exact ⟨fault, List.suffix_refl _⟩
  · rw [whole]
    refine ⟨readable', .inr ⟨_, passes, ?_⟩⟩
    cases tokens : s.tokens with
    | nil =>
      right
      refine ⟨rfl, ?_⟩
      simp [ReadingState.currentKind_eq, ReadingState.drop, tokens]
    | cons t ts => exact .inl ⟨t, rfl⟩

theorem Reads.pass {t : Token} (real : t.kind ≠ .eof) {r : Reading β}
    (rest : r.Reads fun b us k => after b (t :: us) k) :
    (advance >>= fun _ => r).Reads fun b us k => t.Heads us k → after b us k := by
  refine advance_reads.bind fun _ => rest.mono fun b vs k fits us passed heads => ?_
  rcases passed with ⟨u, rfl⟩ | ⟨rfl, none⟩
  · obtain rfl := heads.2 u rfl
    exact fits
  · exact absurd (heads.1.symm.trans none) real

theorem Reads.passKind {kind : Token.Kind} (real : kind ≠ .eof) {r : Reading β}
    (rest : r.Reads fun b us k => ∀ t : Token, t.kind = kind → after b (t :: us) k) :
    (advance >>= fun _ => r).Reads fun b us k => firstKind us k = kind → after b us k := by
  refine advance_reads.bind fun _ => rest.mono fun b vs k fits us passed same => ?_
  rcases passed with ⟨t, rfl⟩ | ⟨rfl, none⟩
  · exact fits t same
  · exact absurd (same.symm.trans none) real

theorem take_reads {kind : Token.Kind} (real : kind ≠ .eof) :
    (take kind).Reads fun t us _ => us = [t] ∧ t.kind = kind := by
  refine Reads.current fun t => ?_
  split
  · rename_i same
    refine Reads.pass (same ▸ real) (.pure fun _ => ?_)
    exact ⟨rfl, same⟩
  · exact fail_reads _

theorem Reads.orElse {rescue : Reading α} (first : r.Reads post)
    (second : rescue.Reads fun _ _ _ => True) : (r.orElse rescue).Reads post := by
  intro s readable
  have here := first s readable
  unfold Reading.orElse
  cases outcome : r s with
  | value a s' =>
    rw [outcome] at here
    exact here
  | failed s' =>
    rw [outcome] at here
    exact (second s' here.1).after_fault here.2
  | abandoned why s' =>
    rw [outcome] at here
    exact here.abandoned

/-- A round passes over something and keeps the invariant `kept`, which is about all tokens passed
over before; the last round turns it into what is to be shown. -/
def Keeps (kept : α → List Token → Token.Kind → Prop) (after : β → List Token → Token.Kind → Prop)
    (a : α) : α ⊕ β → List Token → Token.Kind → Prop
  | .inl a', vs, k => vs ≠ [] ∧ ∀ us, kept a us (firstKind vs k) → kept a' (us ++ vs) k
  | .inr b, vs, k => ∀ us, kept a us (firstKind vs k) → after b (us ++ vs) k

theorem Reads.iterate {step : α → Reading (α ⊕ β)} {kept : α → List Token → Token.Kind → Prop}
    (round : ∀ a, (step a).Reads (Keeps kept after a)) (a : α) :
    (Reading.iterate a step).Reads fun b vs k =>
      ∀ us, kept a us (firstKind vs k) → after b (us ++ vs) k := by
  intro s readable
  induction a, s using Reading.iterate.induct step with
  | case1 a s b s' outcome =>
    have here := round a s readable
    rw [outcome] at here
    rw [Reading.iterate, outcome]
    exact here
  | case2 a s a' s' outcome shorter ih =>
    have here := round a s readable
    rw [outcome] at here
    rw [Reading.iterate, outcome]
    dsimp only
    rw [if_pos shorter]
    obtain ⟨readable', faulted | ⟨us, passes, _, keeps⟩⟩ := here
    · exact (ih readable').after_fault faulted
    · refine .after passes (.of_heads ((ih readable').mono ?_))
      intro b ws k follows heads vs invariant
      rw [← List.append_assoc]
      apply follows
      rw [heads.1]
      apply keeps
      rwa [firstKind_append, heads.1] at invariant
  | case3 a s a' s' outcome stuck =>
    have here := round a s readable
    rw [outcome] at here
    rw [Reading.iterate, outcome]
    dsimp only
    rw [if_neg stuck]
    obtain ⟨readable', faulted | ⟨us, passes, some, _⟩⟩ := here
    · exact ⟨readable', faulted⟩
    · have shorter : s'.count < s.count := by
        rw [s.count_eq, s'.count_eq, passes.tokens, List.length_append]
        have := List.length_pos_iff.mpr some
        omega
      exact absurd shorter stuck
  | case4 a s s' outcome =>
    have here := round a s readable
    rw [outcome] at here
    rw [Reading.iterate, outcome]
    exact here
  | case5 a s why s' outcome =>
    have here := round a s readable
    rw [outcome] at here
    rw [Reading.iterate, outcome]
    exact here.abandoned

theorem Reads.loop {step : α → Reading (α ⊕ β)} {kept : α → List Token → Token.Kind → Prop}
    (round : ∀ a, (step a).Reads (Keeps kept after a)) {a : α} (first : ∀ k, kept a [] k) :
    (Reading.iterate a step).Reads after :=
  (Reads.iterate round a).mono fun _ _ _ follows => follows [] (first _)

def commaRound (item : Reading α) (before : List α) : Reading (List α ⊕ List α) := do
  let kind ← currentKind
  if kind = .rparen ∨ kind = .eof then return .inr before.reverse
  let a ← item
  if (← currentKind) = .comma then
    advance
    return .inl (a :: before)
  else return .inr (a :: before).reverse

def sequenceRound (stops : Token.Kind → Prop) [DecidablePred stops] (inBlock : Bool)
    (item : Reading α) (before : List α) : Reading (List α ⊕ List α) := do
  let kind ← currentKind
  if stops kind then return .inr before.reverse
  .inl <$> orElse ((· :: before) <$> item) (do recover inBlock; return before)

end Reading

def Expr.extendedRound (nested : Nat → Reading Expr) (strength : Nat) (left : Expr) :
    Reading (Expr ⊕ Expr) := do
  let t ← Reading.current
  if strength < t.kind.precedence then
    match t.kind with
    | .plus =>
      Reading.advance
      let right ← nested Precedence.sum
      .inl <$> measured (.add left t.start right) t.start
    | .lparen =>
      Reading.advance
      let args ← Reading.commaList (nested Precedence.lowest)
      let _ ← Reading.take .rparen
      .inl <$> measured (.call left t.start args) t.start
    | _ => return .inr left
  else return .inr left

end Tally

import Tally.Proofs.Grammar.Sound
import Tally.Proofs.Grammar.Taking

namespace Tally

open Grammar

/-- The tokens begin what is derived in this way. -/
def Grammar.Begins {α : Type} (one : α → List Token → Prop) (us : List Token) : Prop :=
  ∃ a vs, one a (us ++ vs)

namespace ReadingState

variable {s s' : ReadingState} {m n : Nat}

structure Alike (n : Nat) (s s' : ReadingState) : Prop where
  tokens : s'.tokens.take (n + 1) = s.tokens.take (n + 1)
  ending : s'.ending = s.ending

namespace Alike

theorem refl (n : Nat) (s : ReadingState) : s.Alike n s := ⟨rfl, rfl⟩

theorem mono (alike : s.Alike n s') (le : m ≤ n) : s.Alike m s' where
  tokens := by
    have shorter := congrArg (List.take (m + 1)) alike.tokens
    rwa [List.take_take, List.take_take, Nat.min_eq_left (Nat.succ_le_succ le)] at shorter
  ending := alike.ending

theorem drop (alike : s.Alike (m + n) s') : (s.drop m).Alike n (s'.drop m) where
  tokens := by
    have later := congrArg (List.drop m) alike.tokens
    rwa [Nat.add_assoc, ← List.take_drop, ← List.take_drop] at later
  ending := alike.ending

theorem head (alike : s.Alike n s') : s'.tokens.head? = s.tokens.head? := by
  have same := congrArg List.head? alike.tokens
  rwa [List.head?_take, List.head?_take, if_neg (Nat.succ_ne_zero n)] at same

theorem current (alike : s.Alike n s') : s'.current = s.current := by
  have head := alike.head
  unfold ReadingState.current
  rw [alike.ending]
  cases tokens : s.tokens with
  | nil =>
    rw [tokens, List.head?_nil, List.head?_eq_none_iff] at head
    rw [head]
  | cons t ts =>
    rw [tokens, List.head?_cons] at head
    obtain ⟨ts', tokens'⟩ := List.head?_eq_some_iff.mp head
    rw [tokens']

theorem length_le (alike : s.Alike n s') (le : n ≤ s.tokens.length) : n ≤ s'.tokens.length := by
  have length := congrArg List.length alike.tokens
  rw [List.length_take, List.length_take] at length
  omega

theorem count_drop_lt (alike : s.Alike n s') (least : 0 < n) (within : n ≤ s.tokens.length) :
    (s'.drop n).count < s'.count := by
  have le := alike.length_le within
  have count := s'.count_eq
  simp only [ReadingState.drop]
  omega

end Alike

theorem take_add (s : ReadingState) (m n : Nat) :
    s.tokens.take m ++ (s.drop m).tokens.take n = s.tokens.take (m + n) := List.take_add.symm

theorem drop_le (within : m ≤ s.tokens.length) (more : n ≤ (s.drop m).tokens.length) :
    m + n ≤ s.tokens.length := by
  have length : (s.drop m).tokens.length = s.tokens.length - m := List.length_drop
  omega

theorem heads_take (s : ReadingState) (n : Nat) :
    s.current.Heads (s.tokens.take n) (s.drop n).current.kind :=
  heads_of_split (List.take_append_drop n s.tokens).symm

end ReadingState

namespace Reading

variable {α β : Type}

/-- How a straight reading ends. An error other than a limit is noted at the token where it is;
the tokens before it and its kind satisfy `blamed`. A limit is noted at `at_` or at a token. -/
inductive StraightAt (r : Reading α) (at_ : Position)
    (blamed : List Token → Token.Kind → Prop) (s : ReadingState) : Prop where
  | value (a : α) (n : Nat) (within : n ≤ s.tokens.length)
    (same : ∀ s', s.Alike n s' → r s' = .value a (s'.drop n))
  | failed (cause : ParseFault) (n : Nat) (within : n ≤ s.tokens.length)
    (noLimit : cause.isLimit = false) (before : blamed (s.tokens.take n) (s.drop n).current.kind)
    (same : ∀ s', s.Alike n s' →
      r s' = .failed ((s'.drop n).note ⟨cause, (s'.drop n).current.start⟩))
  | limit (cause : ParseFault) (place : Position) (s' : ReadingState)
    (isLimit : cause.isLimit = true) (ends : r s = .abandoned .limit s')
    (noted : s'.errors = ⟨cause, place⟩ :: s.errors)
    (at_token : place = at_ ∨ ∃ n ≤ s.tokens.length, place = (s.drop n).current.start)
  | unreadable (e : LexError) (s' : ReadingState) (ends : r s = .abandoned (.unreadable e) s')
    (noted : s'.errors = s.errors) (fault : s.ending = .fault e)

def Straight (r : Reading α) (at_ : Position) (blamed : List Token → Token.Kind → Prop) : Prop :=
  ∀ s : ReadingState, s.Readable → r.StraightAt at_ blamed s

variable {r : Reading α} {at_ : Position} {blamed : List Token → Token.Kind → Prop}
  {post : α → List Token → Token.Kind → Prop} {s : ReadingState} {n : Nat}

theorem Reads.of_value (read : r.Reads post) (readable : s.Readable) {a : α}
    (value : r s = .value a (s.drop n)) :
    (s.drop n).Readable ∧ post a (s.tokens.take n) (s.drop n).current.kind := by
  have here := read s readable
  rw [value] at here
  obtain ⟨readable', faulted | ⟨us, passes, fits⟩⟩ := here
  · exact absurd faulted (ReadingState.not_faulted rfl)
  · have split := (List.take_append_drop n s.tokens).trans passes.tokens
    obtain ⟨rfl, _⟩ := List.append_inj' split rfl
    exact ⟨readable', fits⟩

theorem StraightAt.weaken {at_' : Position} {blamed' : List Token → Token.Kind → Prop}
    (straight : r.StraightAt at_ blamed s)
    (weaker : ∀ n ≤ s.tokens.length, blamed (s.tokens.take n) (s.drop n).current.kind →
      blamed' (s.tokens.take n) (s.drop n).current.kind)
    (place : at_ = at_' ∨ ∃ n ≤ s.tokens.length, at_ = (s.drop n).current.start) :
    r.StraightAt at_' blamed' s := by
  cases straight with
  | value a n within same => exact .value a n within same
  | failed cause n within noLimit before same =>
    exact .failed cause n within noLimit (weaker n within before) same
  | limit cause p s' isLimit ends noted at_token =>
    refine .limit cause p s' isLimit ends noted ?_
    rcases at_token with rfl | token
    · exact place
    · exact .inr token
  | unreadable e s' ends noted fault => exact .unreadable e s' ends noted fault

theorem Straight.mono {blamed' : List Token → Token.Kind → Prop} (straight : r.Straight at_ blamed)
    (weaker : ∀ us k, blamed us k → blamed' us k) : r.Straight at_ blamed' :=
  fun s readable => (straight s readable).weaken (fun _ _ => weaker _ _) (.inl rfl)

theorem Straight.pure {a : α} : Straight (pure a) at_ blamed :=
  fun _ _ => .value a 0 (Nat.zero_le _) fun _ _ => rfl

theorem fail_straight {cause : ParseFault} (noLimit : cause.isLimit = false)
    (missing : ∀ k, blamed [] k) : (fail cause : Reading α).Straight at_ blamed :=
  fun _ _ => .failed cause 0 (Nat.zero_le _) noLimit (missing _) fun _ _ => rfl

theorem abandon_straight {cause : ParseFault} (isLimit : cause.isLimit = true) :
    (abandon cause at_ : Reading α).Straight at_ blamed :=
  fun _ _ => .limit cause at_ _ isLimit rfl rfl (.inl rfl)

theorem StraightAt.congr {r' : Reading α} (straight : r.StraightAt at_ blamed s)
    (same : ∀ s', s'.current = s.current → r' s' = r s') : r'.StraightAt at_ blamed s := by
  cases straight with
  | value a n within outcome =>
    exact .value a n within fun s' alike => (same s' alike.current).trans (outcome s' alike)
  | failed cause n within noLimit before outcome =>
    exact .failed cause n within noLimit before fun s' alike =>
      (same s' alike.current).trans (outcome s' alike)
  | limit cause p s' isLimit ends noted at_token =>
    exact .limit cause p s' isLimit ((same s rfl).trans ends) noted at_token
  | unreadable e s' ends noted fault => exact .unreadable e s' ((same s rfl).trans ends) noted fault

theorem StraightAt.after {r' : Reading α} {blamed' : List Token → Token.Kind → Prop}
    (within : n ≤ s.tokens.length) (goes : ∀ s', s.Alike n s' → r s' = r' (s'.drop n))
    (later : r'.StraightAt at_ blamed' (s.drop n))
    (weaker : ∀ m, blamed' ((s.drop n).tokens.take m) ((s.drop n).drop m).current.kind →
      blamed (s.tokens.take n ++ (s.drop n).tokens.take m) ((s.drop n).drop m).current.kind) :
    r.StraightAt at_ blamed s := by
  have here := goes s (.refl n s)
  cases later with
  | value a m within' same =>
    refine .value a (n + m) (s.drop_le within within') fun s' alike => ?_
    rw [goes s' (alike.mono (Nat.le_add_right n m)), ← s'.drop_drop]
    exact same _ alike.drop
  | failed cause m within' noLimit before same =>
    refine .failed cause (n + m) (s.drop_le within within') noLimit ?_ fun s' alike => ?_
    · rw [← s.take_add, ← s.drop_drop]
      exact weaker m before
    · rw [goes s' (alike.mono (Nat.le_add_right n m)), ← s'.drop_drop]
      exact same _ alike.drop
  | limit cause p s' isLimit ends noted at_token =>
    refine .limit cause p s' isLimit (here.trans ends) noted ?_
    refine at_token.imp_right fun ⟨m, within', place⟩ => ?_
    exact ⟨n + m, s.drop_le within within', by rw [place, s.drop_drop]⟩
  | unreadable e s' ends noted fault => exact .unreadable e s' (here.trans ends) noted fault

theorem Straight.current {f : Token → Reading β}
    (rest : ∀ t, (f t).Straight t.start fun us k => t.Heads us k → blamed us k) :
    (current >>= f).Straight at_ blamed := by
  intro s readable
  have here : (f s.current).StraightAt at_ blamed s := by
    refine (rest s.current s readable).weaken (fun n _ fits => fits (s.heads_take n)) ?_
    exact .inr ⟨0, Nat.zero_le _, rfl⟩
  refine here.congr fun s' same => ?_
  rw [← same]
  rfl

theorem Straight.currentKind {f : Token.Kind → Reading β}
    (rest : ∀ kind, (f kind).Straight at_ fun us k => firstKind us k = kind → blamed us k) :
    (currentKind >>= f).Straight at_ blamed := by
  intro s readable
  have here : (f s.current.kind).StraightAt at_ blamed s :=
    (rest s.current.kind s readable).weaken (fun n _ fits => fits (s.heads_take n).1) (.inl rfl)
  refine here.congr fun s' same => ?_
  rw [← same]
  rfl

theorem advance_straight : advance.Straight at_ blamed := by
  intro s readable
  unfold advance
  rcases drop_cases 1 readable with ⟨e, fault, cut⟩ | ⟨_, readable', _⟩
  · exact .unreadable e _ cut rfl fault
  · have goes {s' : ReadingState} (alike : (s.drop 1).Alike 0 (s'.drop 1)) :
        drop 1 s' = .value () (s'.drop 1) := by
      unfold drop
      dsimp only
      split
      · rename_i e none fault
        have head := alike.head
        rw [none, List.head?_nil] at head
        obtain ⟨p, ending⟩ := readable'.ending (List.head?_eq_none_iff.mp head.symm)
        cases (alike.ending.symm.trans fault).symm.trans ending
      · rfl
    cases tokens : s.tokens with
    | nil =>
      -- at the end there is nothing to pass over
      refine .value () 0 (Nat.zero_le _) fun s' alike => ?_
      have none : s'.tokens = [] := by
        have head := alike.head
        rwa [tokens, List.head?_nil, List.head?_eq_none_iff] at head
      have stays : s'.drop 1 = s'.drop 0 := by
        have count : s'.count = 0 := by rw [s'.count_eq, none, List.length_nil]
        simp [ReadingState.drop, none, count]
      rw [← stays]
      refine goes ⟨?_, alike.ending⟩
      simp [ReadingState.drop, none, tokens]
    | cons t ts =>
      refine .value () 1 ?_ fun s' alike => goes alike.drop
      rw [tokens, List.length_cons]
      exact Nat.succ_le_succ (Nat.zero_le _)

theorem Straight.bind {f : α → Reading β} (first : r.Straight at_ blamed) (read : r.Reads post)
    (rest : ∀ a, (f a).Straight at_ fun vs k =>
      ∀ us, post a us (firstKind vs k) → blamed (us ++ vs) k) :
    (r >>= f).Straight at_ blamed := by
  intro s readable
  cases first s readable with
  | failed cause n within noLimit before same =>
    exact .failed cause n within noLimit before fun s' alike => bind_of_failed (same s' alike)
  | limit cause p s' isLimit ends noted at_token =>
    exact .limit cause p s' isLimit (bind_of_abandoned ends) noted at_token
  | unreadable e s' ends noted fault => exact .unreadable e s' (bind_of_abandoned ends) noted fault
  | value a n within same =>
    obtain ⟨readable', fits⟩ := read.of_value readable (same s (.refl n s))
    refine .after within (fun s' alike => bind_of_value (same s' alike))
      (rest a (s.drop n) readable') fun m before => before _ ?_
    rwa [((s.drop n).heads_take m).1]

theorem Straight.map {g : α → β} (first : r.Straight at_ blamed) (read : r.Reads post) :
    (g <$> r).Straight at_ blamed := first.bind read fun _ => .pure

theorem Straight.pass {t : Token} (real : t.kind ≠ .eof) {r : Reading β}
    (rest : r.Straight at_ fun us k => blamed (t :: us) k) :
    (advance >>= fun _ => r).Straight at_ fun us k => t.Heads us k → blamed us k := by
  refine advance_straight.bind advance_reads fun _ => rest.mono fun vs k fits us passed heads => ?_
  rcases passed with ⟨u, rfl⟩ | ⟨rfl, none⟩
  · obtain rfl := heads.2 u rfl
    exact fits
  · exact absurd (heads.1.symm.trans none) real

theorem Straight.passKind {kind : Token.Kind} (real : kind ≠ .eof) {r : Reading β}
    (rest : r.Straight at_ fun us k => ∀ t : Token, t.kind = kind → blamed (t :: us) k) :
    (advance >>= fun _ => r).Straight at_ fun us k => firstKind us k = kind → blamed us k := by
  refine advance_straight.bind advance_reads fun _ => rest.mono fun vs k fits us passed same => ?_
  rcases passed with ⟨t, rfl⟩ | ⟨rfl, none⟩
  · exact fits t same
  · exact absurd (same.symm.trans none) real

theorem take_straight (kind : Token.Kind) (missing : ∀ k, blamed [] k) :
    (take kind).Straight at_ blamed := by
  refine Straight.current fun t => ?_
  split
  · exact advance_straight.bind advance_reads fun _ => .pure
  · exact fail_straight rfl fun k _ => missing k

theorem iterate_goesOn {step : α → Reading (α ⊕ β)} {a a' : α} (within : n ≤ s.tokens.length)
    (some : s.tokens.take n ≠ [])
    (same : ∀ s', s.Alike n s' → step a s' = .value (.inl a') (s'.drop n)) :
    (∀ s', s.Alike n s' → iterate a step s' = iterate a' step (s'.drop n)) ∧
      (s.drop n).tokens.length < s.tokens.length := by
  have least : 0 < n := by
    cases n with
    | zero => exact absurd List.take_zero some
    | succ n => exact Nat.succ_pos n
  refine ⟨fun s' alike => ?_, ?_⟩
  · rw [iterate, same s' alike]
    exact if_pos (alike.count_drop_lt least within)
  · have length : (s.drop n).tokens.length = s.tokens.length - n := List.length_drop
    omega

theorem Straight.iterate (blamed : List Token → Token.Kind → Prop) {step : α → Reading (α ⊕ β)}
    {kept : α → List Token → Token.Kind → Prop} {after : β → List Token → Token.Kind → Prop}
    (read : ∀ a, (step a).Reads (Keeps kept after a))
    (round : ∀ a, (step a).Straight at_ fun vs k =>
      ∀ us, kept a us (firstKind vs k) → blamed (us ++ vs) k) (a : α) :
    (Reading.iterate a step).Straight at_ fun vs k =>
      ∀ us, kept a us (firstKind vs k) → blamed (us ++ vs) k := by
  intro s readable
  induction length : s.tokens.length using Nat.strongRecOn generalizing a s with
  | ind length ih =>
    subst length
    cases round a s readable with
    | failed cause n within noLimit before same =>
      refine .failed cause n within noLimit before fun s' alike => ?_
      rw [Reading.iterate, same s' alike]
    | limit cause p s' isLimit ends noted at_token =>
      refine .limit cause p s' isLimit ?_ noted at_token
      rw [Reading.iterate, ends]
    | unreadable e s' ends noted fault =>
      refine .unreadable e s' ?_ noted fault
      rw [Reading.iterate, ends]
    | value next n within same =>
      obtain ⟨readable', fits⟩ := (read a).of_value readable (same s (.refl n s))
      cases next with
      | inr b =>
        refine .value b n within fun s' alike => ?_
        rw [Reading.iterate, same s' alike]
      | inl a' =>
        obtain ⟨some, keeps⟩ := fits
        obtain ⟨goes, shorter⟩ := iterate_goesOn within some same
        refine .after within goes (ih _ shorter a' _ readable' rfl) fun m before us invariant => ?_
        rw [← List.append_assoc]
        refine before _ ?_
        rw [firstKind_append, ((s.drop n).heads_take m).1] at invariant
        rw [((s.drop n).heads_take m).1]
        exact keeps us invariant

theorem Straight.loop {step : α → Reading (α ⊕ β)} {kept : α → List Token → Token.Kind → Prop}
    {after : β → List Token → Token.Kind → Prop}
    (read : ∀ a, (step a).Reads (Keeps kept after a))
    (round : ∀ a, (step a).Straight at_ fun vs k =>
      ∀ us, kept a us (firstKind vs k) → blamed (us ++ vs) k) {a : α} (first : ∀ k, kept a [] k) :
    (Reading.iterate a step).Straight at_ blamed :=
  (Straight.iterate blamed read round a).mono fun _ _ before => before [] (first _)

theorem commaList_straight {item : Reading α} {one : α → List Token → Prop}
    (read : item.Reads fun a us _ => one a us)
    (straight : item.Straight at_ fun us _ => Begins one us) :
    (commaList item).Straight at_ fun us _ => Begins (CommaList True one) us := by
  refine Straight.loop (commaRound_reads read) (fun before => ?_) fun _ _ _ list => list
  refine Straight.currentKind fun kind => ?_
  split
  · exact .pure
  refine Straight.bind (straight.mono fun vs _ begun same us list => ?_) read fun a => ?_
  · obtain ⟨a, ws, item⟩ := begun
    have whole := list [a] (vs ++ ws) (.last item)
    rw [← List.append_assoc] at whole
    exact ⟨_, ws, whole⟩
  · refine Straight.currentKind fun kind => ?_
    split
    · exact advance_straight.bind advance_reads fun _ => .pure
    · exact .pure

end Reading

def Token.ofKind (kind : Kind) : Token := ⟨kind, kind.text, Position.start⟩

namespace Grammar

theorem Sum.plus {left : Expr} {us : List Token} {t : Token} (first : Sum True left us)
    (plus : t.kind = .plus) {right : Expr} {vs : List Token} :
    Sum True right vs → ∃ e, Sum True e (us ++ t :: vs)
  | .operand only => ⟨_, .add first plus only⟩
  | .add inner plus' last => by
    obtain ⟨e, sum⟩ := first.plus plus inner
    have whole := Sum.add sum plus' last
    rw [List.append_assoc, List.cons_append] at whole
    exact ⟨_, whole⟩

theorem Sum.called {e : Expr} {us vs : List Token} {l r : Token} {args : List Expr}
    (sum : Sum True e us) (opens : l.kind = .lparen) (list : CommaList True (Sum True) args vs)
    (closes : r.kind = .rparen) : ∃ e', Sum True e' (us ++ l :: (vs ++ [r])) := by
  cases sum with
  | operand only => exact ⟨_, .operand (.call only opens list closes)⟩
  | add first plus last =>
    have whole := Sum.add first plus (.call last opens list closes)
    rw [← List.cons_append, ← List.append_assoc] at whole
    exact ⟨_, whole⟩

end Grammar

namespace Expr

variable {nested : Nat → Reading Expr} {level strength : Nat} {at_ : Position}

theorem measured_straight {blamed : List Token → Token.Kind → Prop} (e : Expr) :
    (measured e at_).Straight at_ blamed := by
  unfold measured
  split
  · exact Reading.abandon_straight rfl
  · exact .pure

theorem operand_straight
    (read : (nested Precedence.lowest).Reads (ReadTo (level + 1) Precedence.lowest))
    (straight : ∀ at_, (nested Precedence.lowest).Straight at_ fun us _ => Begins (Sum True) us) :
    (operand nested).Straight at_ fun us _ => Begins (Sum True) us := by
  let name := Token.ofKind .ident
  let close := Token.ofKind .rparen
  refine Reading.Straight.current fun t => ?_
  split
  · rename_i kind
    exact Reading.Straight.pass (by rw [kind]; decide) .pure
  · rename_i kind
    exact Reading.Straight.pass (by rw [kind]; decide) .pure
  · rename_i opens
    refine Reading.Straight.pass (by rw [opens]; decide) ?_
    refine Reading.Straight.bind ((straight _).mono fun us _ begun => ?_) read fun e => ?_
    · obtain ⟨e, vs, inner⟩ := begun
      refine ⟨e, vs ++ [close], ?_⟩
      rw [List.cons_append, ← List.append_assoc]
      exact .operand (.group opens inner rfl)
    · refine (Reading.take_straight _ fun k us inner => ?_).bind (Reading.take_reads (by decide))
        fun _ => .pure
      refine ⟨e, [close], ?_⟩
      rw [List.append_nil]
      exact .operand (.group opens inner.sum.plain rfl)
  · refine Reading.fail_straight rfl fun k _ => ?_
    exact ⟨_, [name], .operand (.ident (t := name) rfl)⟩

theorem extendedRound_straight
    (read : ∀ strength, Precedence.lowest ≤ strength → strength < Precedence.call →
      (nested strength).Reads (ReadTo (level + 1) strength))
    (straight : ∀ strength, Precedence.lowest ≤ strength → strength < Precedence.call →
      ∀ at_, (nested strength).Straight at_ fun us _ => Begins (Sum True) us) (left : Expr) :
    (extendedRound nested strength left).Straight at_ fun vs k =>
      ∀ us, Extending level strength left us (firstKind vs k) → Begins (Sum True) (us ++ vs) := by
  let close := Token.ofKind .rparen
  refine Reading.Straight.current fun t => ?_
  split
  · split
    · rename_i plus
      refine Reading.Straight.pass (by rw [plus]; decide) ?_
      have inner := straight Precedence.sum (by decide) (by decide) t.start
      refine Reading.Straight.bind (inner.mono fun vs _ begun us first => ?_)
        (read Precedence.sum (by decide) (by decide)) fun right => ?_
      · obtain ⟨right, ws, last⟩ := begun
        obtain ⟨e, sum⟩ := first.sum.plain.plus plus last
        refine ⟨e, ws, ?_⟩
        rwa [List.append_assoc]
      · exact (measured_straight _).map (measured_reads _ _)
    · rename_i opens
      refine Reading.Straight.pass (by rw [opens]; decide) ?_
      have argument : (nested Precedence.lowest).Reads fun e us _ => Sum True e us :=
        (read Precedence.lowest (by decide) (by decide)).mono fun _ _ _ read => read.sum.plain
      have list := Reading.commaList_straight argument
        (straight Precedence.lowest (by decide) (by decide) t.start)
      refine Reading.Straight.bind (list.mono fun vs _ begun us called => ?_)
        (Reading.commaList_reads argument) fun args => ?_
      · obtain ⟨args, ws, list⟩ := begun
        obtain ⟨e, sum⟩ := called.sum.plain.called opens list (r := close) rfl
        refine ⟨e, ws ++ [close], ?_⟩
        simpa using sum
      · refine Reading.Straight.bind (Reading.take_straight _ fun k vs list us called => ?_)
          (Reading.take_reads (by decide)) fun _ => (measured_straight _).map (measured_reads _ _)
        obtain ⟨e, sum⟩ := called.sum.plain.called opens list (r := close) rfl
        refine ⟨e, [close], ?_⟩
        simpa using sum
    · exact .pure
  · exact .pure

theorem parse_straight (room : Nat) (left : room + level = nestingLimit + 1)
    (least : Precedence.lowest ≤ strength) (weak : strength < Precedence.call) :
    (parse room strength).Straight at_ fun us _ => Begins (Sum True) us := by
  induction room generalizing level strength at_ with
  | zero => exact Reading.Straight.current fun _ => Reading.abandon_straight rfl
  | succ room ih =>
    have read {strength : Nat} (least : Precedence.lowest ≤ strength)
        (weak : strength < Precedence.call) :
        (parse room strength).Reads (ReadTo (level + 1) strength) :=
      parse_reads room (by omega) least weak
    have straight {strength : Nat} (least : Precedence.lowest ≤ strength)
        (weak : strength < Precedence.call) (at_ : Position) :
        (parse room strength).Straight at_ fun us _ => Begins (Sum True) us :=
      ih (show room + (level + 1) = nestingLimit + 1 by omega) least weak
    have lowest : Precedence.lowest < Precedence.call := by decide
    have rounds (left : Expr) : (extendedRound (parse room) strength left).Straight at_ fun vs k =>
        ∀ us, Extending level strength left us (firstKind vs k) → Begins (Sum True) (us ++ vs) :=
      extendedRound_straight (fun _ => read) (fun _ => straight) left
    refine Reading.Straight.bind
      (operand_straight (read (Nat.le_refl _) lowest) (straight (Nat.le_refl _) lowest))
      (operand_reads (show level ≤ nestingLimit by omega) (read (Nat.le_refl _) lowest))
      fun left => ?_
    refine Reading.Straight.mono
      (Reading.Straight.iterate (fun us _ => Begins (Sum True) us)
        (extendedRound_reads (fun _ => read) least) rounds left) ?_
    exact fun vs k begun us operand => begun us ⟨.inl operand.1, operand.2⟩

theorem parseWhole_straight : parseWhole.Straight at_ fun us _ => Begins (Sum True) us :=
  parse_straight nestingLimit rfl (by decide) (by decide)

end Expr

theorem skipSemicolon_straight {at_ : Position} {blamed : List Token → Token.Kind → Prop} :
    skipSemicolon.Straight at_ blamed := by
  refine Reading.Straight.currentKind fun kind => ?_
  split
  · exact Reading.advance_straight
  · exact .pure

theorem parseIdent_straight {at_ : Position} {blamed : List Token → Token.Kind → Prop}
    (missing : ∀ k, blamed [] k) : parseIdent.Straight at_ blamed :=
  (Reading.take_straight _ missing).bind (Reading.take_reads (by decide)) fun _ => .pure

theorem Param.parse_straight {at_ : Position} :
    Param.parse.Straight at_ fun us _ => Begins Parameter us := by
  let name := Token.ofKind .ident
  let colon := Token.ofKind .colon
  refine Reading.Straight.bind (parseIdent_straight fun k => ?_) parseIdent_reads fun _ => ?_
  · exact ⟨_, [name, colon, name], .typed rfl rfl rfl⟩
  refine Reading.Straight.bind (Reading.take_straight _ ?_) (Reading.take_reads (by decide))
    fun _ => ?_
  · rintro k _ ⟨n, rfl, named, _⟩
    exact ⟨_, [colon, name], .typed named rfl rfl⟩
  refine Reading.Straight.bind (parseIdent_straight ?_) parseIdent_reads fun _ => .pure
  rintro k _ ⟨rfl, colons⟩ _ ⟨n, rfl, named, _⟩
  exact ⟨_, [name], .typed named colons rfl⟩

theorem Header.parse_straight {at_ : Position} :
    Header.parse.Straight at_ fun us _ => Begins (Heading True) us := by
  let word := Token.ofKind .funcWord
  let name := Token.ofKind .ident
  let opened := Token.ofKind .lparen
  let closed := Token.ofKind .rparen
  let colon := Token.ofKind .colon
  have takes {kind : Token.Kind} (real : kind ≠ .eof) := Reading.take_reads real
  refine Reading.Straight.bind (Reading.take_straight _ fun k => ?_) (takes (by decide)) fun w => ?_
  · exact ⟨_, [word, name, opened, closed, colon, name], .typed rfl rfl rfl .nil rfl rfl rfl⟩
  refine Reading.Straight.bind (parseIdent_straight ?_) parseIdent_reads fun _ => ?_
  · rintro k _ ⟨rfl, begins⟩
    exact ⟨_, [name, opened, closed, colon, name], .typed begins rfl rfl .nil rfl rfl rfl⟩
  refine Reading.Straight.bind (Reading.take_straight _ ?_) (takes (by decide)) fun l => ?_
  · rintro k _ ⟨n, rfl, named, _⟩ _ ⟨rfl, begins⟩
    exact ⟨_, [opened, closed, colon, name], .typed begins named rfl .nil rfl rfl rfl⟩
  refine Reading.Straight.bind
    ((Reading.commaList_straight Param.parse_reads Param.parse_straight).mono ?_)
    (Reading.commaList_reads Param.parse_reads) fun params => ?_
  · rintro us k ⟨params, vs, list⟩ _ ⟨rfl, opens⟩ _ ⟨n, rfl, named, _⟩ _ ⟨rfl, begins⟩
    have whole : Heading True _ (w :: n :: l :: ((us ++ vs) ++ [closed, colon, name])) :=
      .typed begins named opens list rfl rfl rfl
    rw [List.append_assoc] at whole
    exact ⟨_, vs ++ [closed, colon, name], whole⟩
  refine Reading.Straight.bind (Reading.take_straight _ ?_) (takes (by decide)) fun r => ?_
  · rintro k us list _ ⟨rfl, opens⟩ _ ⟨n, rfl, named, _⟩ _ ⟨rfl, begins⟩
    rw [List.append_nil]
    exact ⟨_, [closed, colon, name], .typed begins named opens list rfl rfl rfl⟩
  refine Reading.Straight.bind (Reading.take_straight _ ?_) (takes (by decide)) fun c => ?_
  · rintro k _ ⟨rfl, closes⟩ us list _ ⟨rfl, opens⟩ _ ⟨n, rfl, named, _⟩ _ ⟨rfl, begins⟩
    have whole : Heading True _ (w :: n :: l :: (us ++ ([r] ++ [colon, name]))) :=
      .typed begins named opens list closes rfl rfl
    rw [← List.append_assoc] at whole
    exact ⟨_, [colon, name], whole⟩
  refine Reading.Straight.bind (parseIdent_straight ?_) parseIdent_reads fun _ => .pure
  rintro k _ ⟨rfl, colons⟩ _ ⟨rfl, closes⟩ us list _ ⟨rfl, opens⟩ _ ⟨n, rfl, named, _⟩
    _ ⟨rfl, begins⟩
  have whole : Heading True _ (w :: n :: l :: (us ++ ([r, c] ++ [name]))) :=
    .typed begins named opens list closes colons rfl
  rw [← List.append_assoc] at whole
  exact ⟨_, [name], whole⟩

end Tally

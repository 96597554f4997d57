import Tally.Assembly.Log
import Tally.Proofs.Assembly.Linking
import Mathlib.Algebra.Group.Int.Defs
import Mathlib.Algebra.Group.Nat.Defs

namespace Tally

namespace Sketch

def blank : Sketch := ⟨[], 0, fun _ => none⟩

def label? (s : Sketch) (x : Number) : Option Label := x.toNat?.filter (· < s.labels)

/-- The sketch after an act, or the reason why the act is refused. -/
def act (s : Sketch) : Act → Except LabelFault Sketch
  | .create => .ok { s with labels := s.labels + 1 }
  | .place x =>
    match s.label? x with
    | some l => if (s.places l).isSome then .error (.placedTwice l) else .ok (s.place l)
    | none => .error (.unknown x)
  | .reference x =>
    match s.label? x with
    | some l => .ok (s.add (.label l))
    | none => .error (.unknown x)
  | .op code => .ok (s.add (.bytes (LittleEndian.encode 1 code)))
  | .count x =>
    match x.toNat?.filter (· < 2 ^ 32) with
    | some n => .ok (s.add (.bytes (LittleEndian.encode 4 n)))
    | none => .error (.operand (.count x))
  | .number z =>
    if -2 ^ 63 ≤ z ∧ z < 2 ^ 63 then .ok (s.add (.bytes (LittleEndian.encodeInt 8 z)))
    else .error (.operand (.number z))

def after (s : Sketch) (a : Act) : Sketch :=
  match s.act a with
  | .ok s' => s'
  | .error _ => s

/-- Only labels that were made are used and placed, and no place lies behind the end. -/
structure Sound (s : Sketch) : Prop where
  used : ∀ l, .label l ∈ s.pieces → l < s.labels
  known : ∀ l a, s.places l = some a → l < s.labels
  placed : ∀ l a, s.places l = some a → a ≤ s.size

theorem sound_blank : blank.Sound := ⟨nofun, nofun, nofun⟩

theorem label?_eq_some {s : Sketch} {x : Number} {l : Label} (h : s.label? x = some l) :
    x = (l : Number) ∧ l < s.labels := by
  obtain ⟨named, known⟩ := Option.filter_eq_some_iff.mp h
  exact ⟨Number.toNat?_eq_some.mp named, by simpa using known⟩

theorem size_add (s : Sketch) (p : Piece) : (s.add p).size = s.size + p.size := by
  unfold size add
  rw [sizeOfPieces_append]
  rfl

theorem sound_add {s : Sketch} (sound : s.Sound) {p : Piece}
    (known : ∀ l, p = .label l → l < s.labels) : (s.add p).Sound where
  used l used := by
    rcases List.mem_append.mp used with old | new
    · exact sound.used l old
    · exact known l (List.mem_singleton.mp new).symm
  known := sound.known
  placed l a placed := by
    rw [size_add]
    exact Nat.le_trans (sound.placed l a placed) (Nat.le_add_right _ _)

theorem sound_place {s : Sketch} (sound : s.Sound) {l : Label} (known : l < s.labels) :
    (s.place l).Sound where
  used := sound.used
  known l' a placed := by
    by_cases same : l' = l
    · exact same ▸ known
    · rw [s.places_place_of_ne same] at placed
      exact sound.known l' a placed
  placed l' a placed := by
    by_cases same : l' = l
    · subst same
      rw [s.places_place_self] at placed
      exact Nat.le_of_eq (Option.some.inj placed).symm
    · rw [s.places_place_of_ne same] at placed
      exact sound.placed l' a placed

inductive Grows (s : Sketch) : Act → Sketch → Prop where
  | create : Grows s .create { s with labels := s.labels + 1 }
  | place {l : Label} (known : l < s.labels) (fresh : s.places l = none) :
    Grows s (.place l) (s.place l)
  | reference {l : Label} (known : l < s.labels) : Grows s (.reference l) (s.add (.label l))
  | op (code : Nat) : Grows s (.op code) (s.add (.bytes (LittleEndian.encode 1 code)))
  | count {n : Nat} (small : n < 2 ^ 32) :
    Grows s (.count n) (s.add (.bytes (LittleEndian.encode 4 n)))
  | number {z : Int} (small : -2 ^ 63 ≤ z ∧ z < 2 ^ 63) :
    Grows s (.number z) (s.add (.bytes (LittleEndian.encodeInt 8 z)))

theorem grows_of_act {s s' : Sketch} {a : Act} (done : s.act a = .ok s') : s.Grows a s' := by
  cases a with
  | create =>
    cases done
    exact .create
  | place x =>
    simp only [act] at done
    split at done
    · rename_i l named
      obtain ⟨rfl, known⟩ := label?_eq_some named
      split at done
      · cases done
      · rename_i fresh
        cases done
        exact .place known (by simpa using fresh)
    · cases done
  | reference x =>
    simp only [act] at done
    split at done
    · rename_i l named
      obtain ⟨rfl, known⟩ := label?_eq_some named
      cases done
      exact .reference known
    · cases done
  | op code =>
    cases done
    exact .op code
  | count x =>
    simp only [act] at done
    split at done
    · rename_i n named
      obtain ⟨natural, small⟩ := Option.filter_eq_some_iff.mp named
      cases Number.toNat?_eq_some.mp natural
      cases done
      exact .count (by simpa using small)
    · cases done
  | number z =>
    simp only [act] at done
    split at done
    · rename_i small
      cases done
      exact .number small
    · cases done

namespace Grows

variable {s s' : Sketch} {a : Act}

theorem sound (grows : s.Grows a s') (sound : s.Sound) : s'.Sound := by
  cases grows with
  | create =>
    exact ⟨fun l used => Nat.lt_succ_of_lt (sound.used l used),
      fun l a placed => Nat.lt_succ_of_lt (sound.known l a placed), sound.placed⟩
  | place known => exact sound_place sound known
  | reference known =>
    apply sound_add sound
    intro l same
    cases same
    exact known
  | op | count | number => exact sound_add sound nofun

theorem pieces_extended (grows : s.Grows a s') : s.pieces <+: s'.pieces := by
  cases grows with
  | create | place => exact List.prefix_refl _
  | reference | op | count | number => exact List.prefix_append _ _

end Grows

end Sketch

namespace Linking

variable {k : Linker} {s : Sketch}

/-- What an act on a table comes to if the sketch that it shows says so. -/
def Agrees {α : Type} (r : EStateM.Result LabelFault Linker α) (k : Linker) :
    Except LabelFault Sketch → Prop
  | .ok s => ∃ a k', r = .ok a k' ∧ k'.Shows s
  | .error e => r = .error e k

theorem Agrees.unit {α : Type} {x : Linking α} {outcome : Except LabelFault Sketch}
    (agrees : Agrees (x k) k outcome) : Agrees ((x >>= fun _ => pure ()) k) k outcome := by
  cases outcome with
  | ok s' =>
    obtain ⟨a, k', done, shown⟩ := agrees
    exact ⟨(), k', bind_of_ok done, shown⟩
  | error e => exact bind_of_error agrees

theorem agrees_of_yields {α : Type} {r : EStateM.Result LabelFault Linker α}
    {mentioned : Nat → Prop} {s' : Sketch} {post : Prop} (yields : Yields mentioned r s' post)
    (small : ∀ v, mentioned v → v < LittleEndian.modulus 4) : Agrees r k (.ok s') := by
  rcases yields with ⟨a, k', done, shown, _⟩ | ⟨v, k', _, large, mentions⟩
  · exact ⟨a, k', done, shown⟩
  · exact absurd (small v mentions) (Nat.not_lt.mpr large)

theorem agrees_of_sure {α : Type} {r : EStateM.Result LabelFault Linker α} {s' : Sketch}
    {post : Prop} (yields : Yields (fun _ => False) r s' post) : Agrees r k (.ok s') :=
  agrees_of_yields yields fun _ impossible => impossible.elim

theorem numberBytes_iff {z : Int} :
    z.bmod (LittleEndian.modulus 8) = z ↔ -2 ^ 63 ≤ z ∧ z < 2 ^ 63 := by
  have modulus : LittleEndian.modulus 8 = 2 ^ 64 := by decide
  rw [modulus, Int.bmod_def]
  omega

theorem shows_create (shown : k.Shows s) (sound : s.Sound) :
    Linker.Shows ⟨k.labels.add, k.builder⟩ { s with labels := s.labels + 1 } where
  bytes := shown.bytes
  labels := by
    rw [LabelTable.add, Array.size_push, shown.labels]
  states l known := by
    rw [LabelTable.add, Array.getElem?_push, shown.labels]
    by_cases new : l = s.labels
    · subst new
      have unplaced : s.places s.labels = none := by
        cases placed : s.places s.labels with
        | none => rfl
        | some a => exact absurd (sound.known s.labels a placed) (Nat.lt_irrefl _)
      have unused : .label s.labels ∉ s.pieces :=
        fun used => absurd (sound.used s.labels used) (Nat.lt_irrefl _)
      simp only [Sketch.state, unplaced, slots_eq_nil 0 unused, if_true]
    · rw [if_neg new]
      exact shown.states l (Nat.lt_of_le_of_ne (Nat.le_of_lt_succ known) new)
  small := shown.small

theorem unknown_cases (shown : k.Shows s) {x : Number} (unknown : s.label? x = none) :
    named x k = .error (.unknown x) k ∨
      ∃ l : Label, x = (l : Number) ∧ k.labels.state l = .error (.unknown x) := by
  cases natural : x.toNat? with
  | none =>
    left
    unfold named
    rw [natural]
    rfl
  | some l =>
    right
    have same := Number.toNat?_eq_some.mp natural
    have outside : s.labels ≤ l := by simpa [Sketch.label?, natural] using unknown
    have none : k.labels.states[l]? = none := by
      rw [Array.getElem?_eq_none_iff, shown.labels]
      exact outside
    refine ⟨l, same, ?_⟩
    unfold LabelTable.state
    rw [none, same]

theorem named_natCast (l : Label) : named l = pure l := by
  unfold named
  rw [Number.toNat?_natCast]

theorem place_of_state_error {l : Label} {e : LabelFault} (state : k.labels.state l = .error e) :
    place l k = .error e k := by
  change (ofExcept (k.labels.state l) >>= _) k = _
  rw [state]
  rfl

theorem reference_of_state_error {l : Label} {e : LabelFault}
    (state : k.labels.state l = .error e) : reference l k = .error e k := by
  change (ofExcept (k.labels.state l) >>= _) k = _
  rw [state]
  rfl

theorem unknown_refused {α : Type} {use : Label → Linking α} {x : Number} (shown : k.Shows s)
    (unknown : s.label? x = none)
    (refuses : ∀ l e, k.labels.state l = .error e → use l k = .error e k) :
    (named x >>= use) k = .error (.unknown x) k := by
  rcases unknown_cases shown unknown with failed | ⟨l, rfl, state⟩
  · exact bind_of_error failed
  · rw [named_natCast]
    exact refuses l _ state

theorem place_agrees (shown : k.Shows s) (small : s.size < 2 ^ 32) {l : Label}
    (known : l < s.labels) :
    Agrees (place l k) k
      (if (s.places l).isSome then .error (.placedTwice l) else .ok (s.place l)) := by
  split
  · rename_i twice
    obtain ⟨address, placed⟩ := Option.isSome_iff_exists.mp twice
    have state := shown.state known
    rw [Sketch.state, placed] at state
    change (ofExcept (k.labels.state l) >>= _) k = _
    rw [state]
    rfl
  · rename_i fresh
    have modulus : LittleEndian.modulus 4 = 2 ^ 32 := by decide
    apply agrees_of_yields (place_yields shown known (by simpa using fresh) rfl)
    intro v here
    omega

theorem reference_agrees (shown : k.Shows s) (sound : s.Sound) (small : s.size < 2 ^ 32)
    {l : Label} (known : l < s.labels) : Agrees (reference l k) k (.ok (s.add (.label l))) := by
  have modulus : LittleEndian.modulus 4 = 2 ^ 32 := by decide
  apply agrees_of_yields (reference_yields shown known fun a placed => placed)
  intro v placed
  have inside := sound.placed l v placed
  omega

theorem emitCount_agrees (shown : k.Shows s) (x : Number) :
    Agrees (emitCount x k) k (s.act (.count x)) := by
  have modulus : LittleEndian.modulus 4 = 2 ^ 32 := by decide
  simp only [Sketch.act]
  split
  · rename_i n named
    obtain ⟨natural, inside⟩ := Option.filter_eq_some_iff.mp named
    cases Number.toNat?_eq_some.mp natural
    apply agrees_of_yields (emitCount_yields shown rfl)
    intro v here
    rw [← here, modulus]
    simpa using inside
  · rename_i refused
    have bytes : Builder.countBytes x = .error (.count x) := by
      unfold Builder.countBytes
      cases natural : x.toNat? with
      | none => rfl
      | some n =>
        have large : 2 ^ 32 ≤ n := by simpa [natural] using refused
        exact if_neg (by omega)
    unfold emitCount
    rw [bytes]
    rfl

theorem emitNumber_agrees (shown : k.Shows s) (z : Int) :
    Agrees (emitNumber z k) k (s.act (.number z)) := by
  simp only [Sketch.act]
  split
  · rename_i inside
    exact agrees_of_sure (emitNumber_yields shown (numberBytes_iff.mpr inside))
  · rename_i outside
    unfold emitNumber Builder.numberBytes
    rw [if_neg fun fits => outside (numberBytes_iff.mp fits)]
    rfl

/-- An act on a table does what it does to the sketch that the table shows. -/
theorem perform_agrees (shown : k.Shows s) (sound : s.Sound) (small : s.size < 2 ^ 32) (a : Act) :
    Agrees (a.perform k) k (s.act a) := by
  cases a with
  | create => exact ⟨(), _, rfl, shows_create shown sound⟩
  | place x =>
    simp only [Act.perform, Sketch.act]
    split
    · rename_i l named
      obtain ⟨rfl, known⟩ := Sketch.label?_eq_some named
      rw [named_natCast]
      exact Agrees.unit (x := place l) (place_agrees shown small known)
    · rename_i unknown
      exact unknown_refused shown unknown fun l e state =>
        bind_of_error (place_of_state_error state)
  | reference x =>
    simp only [Act.perform, Sketch.act]
    split
    · rename_i l named
      obtain ⟨rfl, known⟩ := Sketch.label?_eq_some named
      rw [named_natCast]
      exact reference_agrees shown sound small known
    · rename_i unknown
      exact unknown_refused shown unknown fun l e => reference_of_state_error
  | op code => exact Agrees.unit (x := emitOp code) (agrees_of_sure (emitOp_yields shown code))
  | count x => exact Agrees.unit (x := emitCount x) (emitCount_agrees shown x)
  | number z => exact Agrees.unit (x := emitNumber z) (emitNumber_agrees shown z)

def Lengthens {α : Type} (x : Linking α) : Prop :=
  ∀ k, match x k with
    | .ok _ k' => k.builder.offset ≤ k'.builder.offset
    | .error _ k' => k.builder.offset ≤ k'.builder.offset

section

variable {α β : Type}

theorem Lengthens.bind {x : Linking α} {f : α → Linking β} (first : Lengthens x)
    (rest : ∀ a, Lengthens (f a)) : Lengthens (x >>= f) := by
  intro k
  have start := first k
  cases done : x k with
  | error e k' =>
    rw [done] at start
    rw [bind_of_error done]
    exact start
  | ok a k' =>
    rw [done] at start
    rw [bind_of_ok done]
    have further := rest a k'
    cases last : f a k' with
    | ok b k'' | error e k'' =>
      rw [last] at further
      exact Nat.le_trans start further

theorem pure_lengthens (a : α) : Lengthens (pure a) := fun _ => Nat.le_refl _

theorem throw_lengthens (e : LabelFault) : Lengthens (throw e : Linking α) := fun _ => Nat.le_refl _

theorem get_lengthens : Lengthens (get : Linking Linker) := fun _ => Nat.le_refl _

theorem ofExcept_lengthens (x : Except LabelFault α) : Lengthens (ofExcept x) := by
  cases x with
  | ok a => exact pure_lengthens a
  | error e => exact throw_lengthens e

theorem named_lengthens (x : Number) : Lengthens (named x) := by
  unfold named
  split
  · exact pure_lengthens _
  · exact throw_lengthens _

theorem setPlaced_lengthens (l : Label) (a : Nat) : Lengthens (setPlaced l a) :=
  fun _ => Nat.le_refl _

theorem addSlot_lengthens (l : Label) (slot : Nat) : Lengthens (addSlot l slot) :=
  fun _ => Nat.le_refl _

theorem offset_emit (b : Builder) (bs : List UInt8) : b.offset ≤ (b.emit bs).2.offset := by
  rw [Builder.offset, Builder.offset, Builder.emit, ← Array.length_toList, ← Array.length_toList]
  simp

theorem emit_lengthens (bytes : Except OperandFault (List UInt8)) : Lengthens (emit bytes) := by
  intro k
  cases bytes with
  | ok bs => exact offset_emit k.builder bs
  | error e => exact Nat.le_refl _

theorem size_overwriteFrom (bytes : Array UInt8) (offset : Nat) (new : List UInt8) :
    (Builder.overwriteFrom bytes offset new).size = bytes.size := by
  induction new generalizing bytes offset with
  | nil => rfl
  | cons b bs ih => rw [Builder.overwriteFrom, ih, Array.size_setIfInBounds]

theorem patch_lengthens (offset address : Nat) : Lengthens (patch offset address) := by
  rintro ⟨labels, builder⟩
  unfold patch
  dsimp only
  cases Builder.countBytes address with
  | error e => exact Nat.le_refl _
  | ok bytes =>
    cases builder.operandOffset offset with
    | error e => exact Nat.le_refl _
    | ok i => exact Nat.le_of_eq (size_overwriteFrom _ _ _).symm

theorem forM_lengthens {f : α → Linking PUnit} (each : ∀ a, Lengthens (f a)) (as : List α) :
    Lengthens (as.forM f) := by
  induction as with
  | nil => exact pure_lengthens _
  | cons a as ih => exact (each a).bind fun _ => ih

theorem place_lengthens (l : Label) : Lengthens (place l) := by
  apply get_lengthens.bind
  intro k
  apply (ofExcept_lengthens _).bind
  intro state
  cases state with
  | placed a => exact throw_lengthens _
  | waiting slots =>
    apply (forM_lengthens (fun slot => patch_lengthens slot _) _).bind
    intro _
    exact (setPlaced_lengthens l _).bind fun _ => pure_lengthens _

theorem reference_lengthens (l : Label) : Lengthens (reference l) := by
  apply get_lengthens.bind
  intro k
  apply (ofExcept_lengthens _).bind
  intro state
  cases state with
  | placed a => exact (emit_lengthens _).bind fun _ => pure_lengthens _
  | waiting slots => exact (emit_lengthens _).bind fun slot => addSlot_lengthens l slot

theorem perform_lengthens (a : Act) : Lengthens a.perform := by
  cases a with
  | create => exact fun _ => Nat.le_refl _
  | place x =>
    apply (named_lengthens x).bind
    intro l
    exact (place_lengthens l).bind fun _ => pure_lengthens _
  | reference x => exact (named_lengthens x).bind reference_lengthens
  | op code => exact fun k => offset_emit k.builder _
  | count x => exact (emit_lengthens _).bind fun _ => pure_lengthens _
  | number z => exact (emit_lengthens _).bind fun _ => pure_lengthens _

end

end Linking

end Tally

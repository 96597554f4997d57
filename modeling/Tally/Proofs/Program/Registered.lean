import Tally.Proofs.Program.Kept

namespace Tally

def PrimitiveNames.gives (known : PrimitiveNames) (primitive : String) : Bool :=
  match known primitive with
  | .ok found => found
  | .error _ => false

/-- The first prototype whose primitive is not given. -/
def Program.firstRefused? (known : PrimitiveNames) (p : Program) : Option Prototype :=
  p.prototypes.find? fun q => !known.gives q.primitive

def Prototype.refusal (known : PrimitiveNames) (q : Prototype) : LoweringFault :=
  match known q.primitive with
  | .ok _ => .unknownPrimitive q.primitive q.header.name.text q.header.word
  | .error message => .registry message

section

variable {known : PrimitiveNames} {p : Program} {q : Prototype}

theorem PrimitiveNames.gives_iff {primitive : String} :
    known.gives primitive = true ↔ known primitive = .ok true := by
  unfold gives
  cases known primitive with
  | ok found => simp
  | error message => simp

theorem Program.known_of_firstRefused?_eq_none (none : p.firstRefused? known = none) :
    ∀ q ∈ p.prototypes, known q.primitive = .ok true := by
  intro q member
  have given := List.find?_eq_none.mp none q member
  exact PrimitiveNames.gives_iff.mp (by simpa using given)

theorem Program.answer_of_firstRefused? (first : p.firstRefused? known = some q) :
    known q.primitive = .ok false ∨ ∃ message, known q.primitive = .error message := by
  have refused := List.find?_some first
  unfold PrimitiveNames.gives at refused
  cases answer : known q.primitive with
  | error message => exact Or.inr ⟨message, rfl⟩
  | ok found =>
    rw [answer] at refused
    cases found with
    | false => exact Or.inl rfl
    | true => cases refused

theorem Program.exists_items_of_firstRefused? (first : p.firstRefused? known = some q) :
    ∃ before after, p.items = before ++ .prototype q :: after ∧ known.gives q.primitive = false ∧
      ∀ r, .prototype r ∈ before → known r.primitive = .ok true := by
  unfold firstRefused? prototypes at first
  rw [List.find?_filterMap, Option.bind_eq_some_iff] at first
  obtain ⟨item, found, same⟩ := first
  obtain ⟨refused, before, after, split, earlier⟩ := List.find?_eq_some_iff_append.mp found
  cases item with
  | definition f => cases same
  | stmt s => cases same
  | prototype q' =>
    cases same
    refine ⟨before, after, split, by simpa using refused, ?_⟩
    intro r member
    have given := earlier _ member
    exact PrimitiveNames.gives_iff.mp (by simpa using given)

theorem Declarations.add_of_refused (d : Declarations) (refused : known.gives q.primitive = false) :
    d.add known (.prototype q) = .error (q.refusal known) := by
  unfold PrimitiveNames.gives at refused
  unfold Prototype.refusal
  cases answer : known q.primitive with
  | error message => simp only [add, answer]
  | ok found =>
    rw [answer] at refused
    cases refused
    simp only [add, answer]

theorem Declarations.ofProgram_of_refused (kept : p.violations = [])
    (first : p.firstRefused? known = some q) :
    ofProgram known p = .error (q.refusal known) := by
  obtain ⟨before, after, split, refused, earlier⟩ := Program.exists_items_of_firstRefused? first
  have nodup := (Globals.nodup_of_repeated (List.append_eq_nil_iff.mp kept).1).2
  have names : (namesOf ([] ++ before)).Nodup := by
    rw [split, namesOf, List.filterMap_append] at nodup
    exact (List.nodup_append.mp nodup).1
  obtain ⟨d, done⟩ := exists_foldlM before of_empty names earlier
  unfold ofProgram
  rw [split, List.foldlM_append, done]
  change List.foldlM (add known) d (.prototype q :: after) = _
  rw [List.foldlM_cons, d.add_of_refused refused]
  rfl

end

end Tally

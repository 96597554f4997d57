import Tally.Program.Compilation
import Tally.Program.Meaning
import Tally.Program.Rules
import Mathlib.Data.Option.Basic

namespace Tally

def namesOf (items : List Item) : List String := items.filterMap Item.name?

def Prototype.native (q : Prototype) : Native :=
  ⟨q.header.name.text, q.primitive, q.header.params.length⟩

/-- A binding stands for a declaration by its place among those of its kind. -/
inductive Binding.Means (p : Program) : Binding → Item → Prop where
  | function {i : Nat} {f : Definition} (here : p.definitions[i]? = some f) :
    Means p (.function i) (.definition f)
  | native {i : Nat} {q : Prototype} (here : p.prototypes[i]? = some q) :
    Means p (.native i q.header.name.text) (.prototype q)

structure Declarations.Of (d : Declarations) (p : Program) : Prop where
  top : d.scope.frames = []
  pending : d.pending.toList = p.definitions.zipIdx
  natives : d.natives.toList = p.prototypes.map Prototype.native
  bound : ∀ name, Option.Rel (Binding.Means p) (d.scope.globals.lookup name) (p.declaration? name)

namespace Program

variable (items more : List Item)

theorem definitions_append :
    (mk (items ++ more)).definitions = (mk items).definitions ++ (mk more).definitions :=
  List.filterMap_append

theorem prototypes_append :
    (mk (items ++ more)).prototypes = (mk items).prototypes ++ (mk more).prototypes :=
  List.filterMap_append

theorem declaration?_append (name : String) :
    (mk (items ++ more)).declaration? name =
      ((mk items).declaration? name).or ((mk more).declaration? name) :=
  List.find?_append

end Program

theorem Binding.Means.append {items : List Item} {b : Binding} {declared : Item}
    (means : b.Means ⟨items⟩ declared) (more : List Item) : b.Means ⟨items ++ more⟩ declared := by
  cases means with
  | function here =>
    apply Binding.Means.function
    rw [Program.definitions_append,
      List.getElem?_append_left (List.getElem?_eq_some_iff.mp here).1]
    exact here
  | native here =>
    apply Binding.Means.native
    rw [Program.prototypes_append,
      List.getElem?_append_left (List.getElem?_eq_some_iff.mp here).1]
    exact here

namespace Declarations

theorem define_eq_ok {d d' : Declarations} {name : String} {b : Binding} (top : d.scope.frames = [])
    (done : d.define name b = .ok d') :
    d.scope.globals.lookup name = none ∧
      d' = { d with scope := { d.scope with globals := (name, b) :: d.scope.globals } } := by
  have kind : d.scope.kind = .global := by rw [Scope.kind, top]
  unfold define Scope.define at done
  rw [kind] at done
  cases b with
  | argument i => cases done
  | function _ | native _ _ =>
    cases old : d.scope.globals.lookup name with
    | none =>
      simp only [old, Option.isSome_none] at done
      cases done
      exact ⟨rfl, rfl⟩
    | some b' =>
      simp only [old, Option.isSome_some] at done
      cases done

theorem bound_cons {items : List Item} {globals : Bindings} {item : Item} {own : String}
    {b : Binding} (named : item.name? = some own) (means : b.Means ⟨items ++ [item]⟩ item)
    (fresh : globals.lookup own = none)
    (bound : ∀ name, Option.Rel (Binding.Means ⟨items⟩) (globals.lookup name)
      ((Program.mk items).declaration? name)) (name : String) :
    Option.Rel (Binding.Means ⟨items ++ [item]⟩) (((own, b) :: globals).lookup name)
      ((Program.mk (items ++ [item])).declaration? name) := by
  have old := bound name
  rw [Program.declaration?_append]
  by_cases same : name = own
  · subst same
    rw [fresh] at old
    have undeclared : (Program.mk items).declaration? name = none := by
      cases h : (Program.mk items).declaration? name with
      | none => rfl
      | some _ => rw [h] at old; cases old
    have found : (Program.mk [item]).declaration? name = some item := by
      unfold Program.declaration?
      rw [List.find?_singleton, if_pos (decide_eq_true named)]
    rw [List.lookup_cons_self, undeclared, found]
    exact Option.Rel.some means
  · have other : (Program.mk [item]).declaration? name = none := by
      unfold Program.declaration?
      rw [List.find?_singleton, named]
      simp [Ne.symm same]
    rw [other, Option.or_none, List.lookup_cons, beq_eq_false_iff_ne.mpr same]
    cases h : (Program.mk items).declaration? name <;> cases h' : globals.lookup name <;>
      rw [h, h'] at old <;> cases old
    · exact Option.Rel.none
    · exact Option.Rel.some (Binding.Means.append ‹_› _)

theorem Of.definition {items : List Item} {d d' : Declarations} {f : Definition}
    (of : d.Of ⟨items⟩) (known : PrimitiveNames)
    (done : d.add known (.definition f) = .ok d') : d'.Of ⟨items ++ [.definition f]⟩ := by
  have count : d.pending.size = (Program.mk items).definitions.length := by
    rw [← Array.length_toList, of.pending, List.length_zipIdx]
  have last : (Program.mk [.definition f]).definitions = [f] := rfl
  simp only [add] at done
  cases defined : d.define f.header.name.text (.function d.pending.size) with
  | error e =>
    rw [defined] at done
    cases done
  | ok d₁ =>
    rw [defined] at done
    cases done
    obtain ⟨fresh, rfl⟩ := define_eq_ok of.top defined
    refine ⟨of.top, ?_, ?_, ?_⟩
    · rw [Array.toList_push, of.pending, Program.definitions_append, last, List.zipIdx_append, count]
      simp
    · rw [Program.prototypes_append]
      exact of.natives.trans (by simp [Program.prototypes])
    · apply bound_cons rfl _ fresh of.bound
      apply Binding.Means.function
      rw [count, Program.definitions_append, last]
      simp

theorem Of.prototype {items : List Item} {d d' : Declarations} {q : Prototype}
    (of : d.Of ⟨items⟩) (known : PrimitiveNames)
    (done : d.add known (.prototype q) = .ok d') : d'.Of ⟨items ++ [.prototype q]⟩ := by
  have count : d.natives.size = (Program.mk items).prototypes.length := by
    rw [← Array.length_toList, of.natives, List.length_map]
  have last : (Program.mk [.prototype q]).prototypes = [q] := rfl
  simp only [add] at done
  cases asked : known q.primitive with
  | error message =>
    simp only [asked] at done
    cases done
  | ok found =>
    cases found with
    | false =>
      simp only [asked] at done
      cases done
    | true =>
      cases defined : d.define q.header.name.text (.native d.natives.size q.header.name.text) with
      | error e =>
        simp only [asked, defined] at done
        cases done
      | ok d₁ =>
        simp only [asked, defined] at done
        cases done
        obtain ⟨fresh, rfl⟩ := define_eq_ok of.top defined
        refine ⟨of.top, ?_, ?_, ?_⟩
        · rw [Program.definitions_append]
          exact of.pending.trans (by simp [Program.definitions])
        · rw [Array.toList_push, of.natives, Program.prototypes_append, last, List.map_append]
          rfl
        · apply bound_cons rfl _ fresh of.bound
          apply Binding.Means.native
          rw [count, Program.prototypes_append, last]
          simp

theorem Of.stmt {items : List Item} {d : Declarations} (of : d.Of ⟨items⟩) (s : Stmt) :
    d.Of ⟨items ++ [.stmt s]⟩ := by
  refine ⟨of.top, ?_, ?_, ?_⟩
  · rw [Program.definitions_append]
    exact of.pending.trans (by simp [Program.definitions])
  · rw [Program.prototypes_append]
    exact of.natives.trans (by simp [Program.prototypes])
  · intro name
    have old := of.bound name
    have none : (Program.mk [.stmt s]).declaration? name = none := rfl
    rw [Program.declaration?_append, none, Option.or_none]
    cases h : (Program.mk items).declaration? name <;>
      cases h' : d.scope.globals.lookup name <;> rw [h, h'] at old <;> cases old
    · exact Option.Rel.none
    · exact Option.Rel.some (Binding.Means.append ‹_› _)

theorem Of.add {items : List Item} {d d' : Declarations} {item : Item} (of : d.Of ⟨items⟩)
    (known : PrimitiveNames) (done : d.add known item = .ok d') : d'.Of ⟨items ++ [item]⟩ := by
  cases item with
  | definition f => exact of.definition known done
  | prototype q => exact of.prototype known done
  | stmt s =>
    cases done
    exact of.stmt s

theorem of_empty : Declarations.empty.Of ⟨[]⟩ :=
  ⟨rfl, rfl, rfl, fun _ => Option.Rel.none⟩

theorem of_foldlM (known : PrimitiveNames) (more : List Item) {items : List Item}
    {d d' : Declarations} (of : d.Of ⟨items⟩) (done : more.foldlM (add known) d = .ok d') :
    d'.Of ⟨items ++ more⟩ := by
  induction more generalizing items d with
  | nil =>
    cases done
    rw [List.append_nil]
    exact of
  | cons item more ih =>
    rw [List.foldlM_cons] at done
    cases step : d.add known item with
    | error e =>
      rw [step] at done
      cases done
    | ok d₁ =>
      rw [step] at done
      have rest := ih (of.add known step) done
      rwa [List.append_assoc] at rest

theorem of_ofProgram {known : PrimitiveNames} {p : Program} {d : Declarations}
    (done : ofProgram known p = .ok d) : d.Of p :=
  of_foldlM known p.items of_empty done

end Declarations

end Tally

import Tally.Proofs.Program.Declared
import Tally.Proofs.Program.Emission

namespace Tally

theorem Program.name_of_declaration? {p : Program} {name : String} {item : Item}
    (found : p.declaration? name = some item) : item.name? = some name := by
  simpa using List.find?_some found

namespace Globals

theorem lookup_insert (g : Globals) (own name : String) (s : Signature) :
    (if g.declares own then g else (own, s) :: g).lookup name =
      (g.lookup name).or (if own = name then some s else none) := by
  unfold declares
  by_cases same : own = name
  · subst same
    cases old : g.lookup own with
    | none => simp
    | some s' => simp [old]
  · have other : (name == own) = false := beq_eq_false_iff_ne.mpr (Ne.symm same)
    rw [if_neg same, Option.or_none]
    split
    · rfl
    · rw [List.lookup_cons, other]

theorem lookup_declare (g : Globals) (item : Item) (name : String) :
    (g.declare item).lookup name =
      (g.lookup name).or (if item.name? = some name then item.signature? else none) := by
  cases item with
  | stmt s => simp [declare, Item.header?, Item.signature?]
  | definition d =>
    simpa [declare, Item.name?, Item.header?, Item.signature?] using
      lookup_insert g d.header.name.text name _
  | prototype q =>
    simpa [declare, Item.name?, Item.header?, Item.signature?] using
      lookup_insert g q.header.name.text name _

theorem lookup_declareAll (g : Globals) (items : List Item) (name : String) :
    (g.declareAll items).lookup name =
      (g.lookup name).or (((Program.mk items).declaration? name).bind Item.signature?) := by
  induction items generalizing g with
  | nil => exact (Option.or_none).symm
  | cons item items ih =>
    have rest := ih (g.declare item)
    rw [lookup_declare, Option.or_assoc] at rest
    refine rest.trans (congrArg _ ?_)
    unfold Program.declaration?
    rw [List.find?_cons]
    by_cases named : item.name? = some name
    · cases item with
      | stmt s => cases named
      | definition d => simp [named, Item.signature?]
      | prototype q => simp [named, Item.signature?]
    · simp [named]

theorem declares_declareAll (items : List Item) (name : String) :
    (declareAll [] items).declares name = ((Program.mk items).declaration? name).isSome := by
  unfold declares
  rw [lookup_declareAll]
  cases found : (Program.mk items).declaration? name with
  | none => rfl
  | some item =>
    have named := Program.name_of_declaration? found
    cases item with
    | stmt s => cases named
    | definition d => rfl
    | prototype q => rfl

theorem nodup_of_repeated {g : Globals} {items : List Item} (none : g.repeated items = []) :
    (∀ name ∈ namesOf items, g.declares name = false) ∧ (namesOf items).Nodup := by
  induction items generalizing g with
  | nil => exact ⟨fun _ member => absurd member List.not_mem_nil, List.nodup_nil⟩
  | cons item items ih =>
    cases header : item.header? with
    | none =>
      have name : item.name? = Option.none := by rw [Item.name?, header]; rfl
      have same : g.declare item = g := by simp only [declare, header]
      have names : namesOf (item :: items) = namesOf items := List.filterMap_cons_none name
      simp only [repeated, header, same] at none
      rw [names]
      exact ih none
    | some h =>
      have name : item.name? = some h.name.text := by rw [Item.name?, header]; rfl
      have names : namesOf (item :: items) = h.name.text :: namesOf items :=
        List.filterMap_cons_some name
      simp only [repeated, header] at none
      by_cases old : g.declares h.name.text = true
      · rw [if_pos old] at none
        cases none
      · rw [if_neg old] at none
        obtain ⟨fresh, nodup⟩ := ih none
        have apart : ∀ n ∈ namesOf items, h.name.text ≠ n ∧ g.declares n = false := by
          intro n member
          have new := fresh n member
          unfold declares at new ⊢
          rw [lookup_declare, name] at new
          cases item with
          | stmt s => cases header
          | definition d | prototype q =>
            cases header
            cases found : g.lookup n with
            | some s => rw [found] at new; cases new
            | none =>
              refine ⟨?_, rfl⟩
              intro same
              subst same
              simp [found, Item.signature?] at new
        rw [names, List.nodup_cons]
        constructor
        · intro n member
          rcases List.mem_cons.mp member with rfl | member
          · simpa using old
          · exact (apart n member).2
        · exact ⟨fun member => (apart _ member).1 rfl, nodup⟩

end Globals

theorem nodup_of_repeatedParams {h : Header} (none : h.repeatedParams = []) :
    h.paramNames.Nodup := by
  have go (before : List String) (ps : List Param) (none : Header.repeatedParams.go h before ps = []) :
      (∀ p ∈ ps, p.name.text ∉ before) ∧ (ps.map fun p => p.name.text).Nodup := by
    induction ps generalizing before with
    | nil => simp
    | cons p ps ih =>
      simp only [Header.repeatedParams.go] at none
      by_cases old : before.contains p.name.text = true
      · rw [if_pos old] at none
        cases none
      · rw [if_neg old] at none
        obtain ⟨fresh, nodup⟩ := ih _ none
        constructor
        · intro q member
          rcases List.mem_cons.mp member with rfl | member
          · simpa using old
          · exact fun inside => fresh q member (List.mem_cons_of_mem _ inside)
        · rw [List.map_cons, List.nodup_cons]
          refine ⟨?_, nodup⟩
          intro inside
          obtain ⟨q, member, same⟩ := List.mem_map.mp inside
          exact fresh q member (by rw [same]; exact List.mem_cons_self)
  exact (go [] h.params none).2

theorem exists_lastIndex? {name : String} {ps : List String} (member : name ∈ ps) :
    ∃ i, lastIndex? name ps = some i := by
  induction ps with
  | nil => cases member
  | cons p ps ih =>
    rw [lastIndex?]
    cases found : lastIndex? name ps with
    | some i => exact ⟨i + 1, rfl⟩
    | none =>
      rcases List.mem_cons.mp member with same | member
      · exact ⟨0, if_pos same.symm⟩
      · obtain ⟨i, here⟩ := ih member
        cases found.symm.trans here

theorem mem_of_lastIndex? {name : String} {ps : List String} {i : Nat}
    (found : lastIndex? name ps = some i) : name ∈ ps := by
  induction ps generalizing i with
  | nil => cases found
  | cons p ps ih =>
    rw [lastIndex?] at found
    cases later : lastIndex? name ps with
    | some j => exact List.mem_cons_of_mem _ (ih later)
    | none =>
      rw [later] at found
      by_cases same : p = name
      · exact same ▸ List.mem_cons_self
      · simp only [same, if_false] at found
        cases found

theorem lastIndex?_lt {name : String} {ps : List String} {i : Nat}
    (found : lastIndex? name ps = some i) : i < ps.length := by
  induction ps generalizing i with
  | nil => cases found
  | cons p ps ih =>
    rw [lastIndex?] at found
    rw [List.length_cons]
    cases later : lastIndex? name ps with
    | some j =>
      rw [later] at found
      cases found
      have bound := ih later
      omega
    | none =>
      rw [later] at found
      by_cases same : p = name
      · simp only [same, if_true] at found
        cases found
        omega
      · simp only [same, if_false] at found
        cases found

namespace Declarations

variable {d : Declarations} {p : Program}

theorem Of.means (of : d.Of p) {name : String} {b : Binding}
    (bound : d.scope.globals.lookup name = some b) :
    ∃ item, p.declaration? name = some item ∧ b.Means p item := by
  have related := of.bound name
  rw [bound] at related
  cases found : p.declaration? name with
  | none =>
    rw [found] at related
    cases related
  | some item =>
    rw [found] at related
    cases related with
    | some means => exact ⟨item, rfl, means⟩

theorem Of.resolve_top (of : d.Of p) (name : String) :
    d.scope.resolve name =
      match d.scope.globals.lookup name with
      | some b => .ok b
      | none => .error (.unresolved name) := by
  unfold Scope.resolve
  rw [of.top]
  rfl

theorem Of.resolve_body (of : d.Of p) (params : List String) (name : String) :
    (d.scope.enterFunction params).resolve name =
      match lastIndex? name params with
      | some i => .ok (.argument i)
      | none => d.scope.resolve name := by
  rw [of.resolve_top]
  unfold Scope.resolve
  have frames : (d.scope.enterFunction params).frames = [.function params] := by
    rw [Scope.enterFunction, of.top]
  rw [frames, Scope.argument?, Scope.argument?, Option.or_none]
  cases lastIndex? name params <;> rfl

theorem Of.exists_binding (of : d.Of p) {name : String}
    (declared : (Globals.declareAll [] p.items).declares name = true) :
    ∃ b, d.scope.globals.lookup name = some b := by
  have bound := of.bound name
  rw [Globals.declares_declareAll] at declared
  obtain ⟨item, found⟩ := Option.isSome_iff_exists.mp declared
  rw [found] at bound
  cases here : d.scope.globals.lookup name with
  | some b => exact ⟨b, rfl⟩
  | none => rw [here] at bound; cases bound

theorem Of.covers_top (of : d.Of p) (inFunction : Bool) :
    Surroundings.Covers ⟨Globals.declareAll [] p.items, [], inFunction⟩ d.scope := by
  intro name known
  obtain ⟨b, here⟩ := of.exists_binding (by simpa [Surroundings.knows] using known)
  exact ⟨b, by rw [of.resolve_top, here]⟩

theorem Of.covers_body (of : d.Of p) (params : List String) (inFunction : Bool) :
    Surroundings.Covers ⟨Globals.declareAll [] p.items, params, inFunction⟩
      (d.scope.enterFunction params) := by
  intro name known
  rw [of.resolve_body]
  cases index : lastIndex? name params with
  | some i => exact ⟨.argument i, rfl⟩
  | none =>
    have free : name ∉ params := by
      intro member
      obtain ⟨i, here⟩ := exists_lastIndex? member
      cases index.symm.trans here
    obtain ⟨b, here⟩ := of.exists_binding (by simpa [Surroundings.knows, free] using known)
    exact ⟨b, by rw [of.resolve_top, here]⟩

theorem Of.unbound {items : List Item} (of : d.Of ⟨items⟩) {name : String}
    (new : name ∉ namesOf items) : d.scope.globals.lookup name = none := by
  have bound := of.bound name
  have undeclared : (Program.mk items).declaration? name = none := by
    unfold Program.declaration?
    rw [List.find?_eq_none]
    intro item member named
    exact new (List.mem_filterMap.mpr ⟨item, member, by simpa using named⟩)
  rw [undeclared] at bound
  cases here : d.scope.globals.lookup name with
  | none => rfl
  | some b => rw [here] at bound; cases bound

theorem exists_define (top : d.scope.frames = []) {name : String} {b : Binding}
    (fresh : d.scope.globals.lookup name = none) (notArgument : ∀ i, b ≠ .argument i) :
    ∃ d', d.define name b = .ok d' := by
  have kind : d.scope.kind = .global := by rw [Scope.kind, top]
  unfold define Scope.define
  rw [kind]
  cases b with
  | argument i => exact absurd rfl (notArgument i)
  | function _ | native _ _ =>
    simp only [fresh, Option.isSome_none]
    exact ⟨_, rfl⟩

theorem exists_add {known : PrimitiveNames} (top : d.scope.frames = []) {item : Item}
    (fresh : ∀ name, item.name? = some name → d.scope.globals.lookup name = none)
    (knows : ∀ q, item = .prototype q → known q.primitive = .ok true) :
    ∃ d', d.add known item = .ok d' := by
  cases item with
  | definition f =>
    obtain ⟨d', done⟩ := exists_define (b := .function d.pending.size) top
      (fresh f.header.name.text rfl) (fun _ h => by cases h)
    simp only [add, done]
    exact ⟨_, rfl⟩
  | prototype q =>
    obtain ⟨d', done⟩ := exists_define
      (b := .native d.natives.size q.header.name.text) top
      (fresh q.header.name.text rfl) (fun _ h => by cases h)
    simp only [add, knows q rfl, done]
    exact ⟨_, rfl⟩
  | stmt s => exact ⟨d, rfl⟩

theorem exists_foldlM {known : PrimitiveNames} (more : List Item) {items : List Item}
    (of : d.Of ⟨items⟩) (nodup : (namesOf (items ++ more)).Nodup)
    (knows : ∀ q, .prototype q ∈ more → known q.primitive = .ok true) :
    ∃ d', more.foldlM (add known) d = .ok d' := by
  induction more generalizing items d with
  | nil => exact ⟨d, rfl⟩
  | cons item more ih =>
    have split : namesOf (items ++ item :: more) =
        namesOf items ++ (item.name?.toList ++ namesOf more) := by
      simp only [namesOf, List.filterMap_append, List.filterMap_cons]
      cases item.name? <;> rfl
    have fresh : ∀ name, item.name? = some name → d.scope.globals.lookup name = none := by
      intro name named
      apply of.unbound
      intro old
      rw [split, named] at nodup
      exact (List.nodup_append.mp nodup).2.2 name old name (by simp) rfl
    obtain ⟨d', done⟩ := exists_add of.top fresh fun q same => knows q (by simp [same])
    obtain ⟨d'', rest⟩ := ih (of.add known done) (by simpa using nodup)
      fun q member => knows q (List.mem_cons_of_mem _ member)
    refine ⟨d'', ?_⟩
    rw [List.foldlM_cons, done]
    exact rest

end Declarations

/-- The declarations of a program that keeps the rules, over primitives that are known. -/
theorem Program.exists_declarations {known : PrimitiveNames} {p : Program}
    (kept : p.violations = [])
    (knows : ∀ q ∈ p.prototypes, known q.primitive = .ok true) :
    ∃ d, Declarations.ofProgram known p = .ok d := by
  have nodup := (Globals.nodup_of_repeated (List.append_eq_nil_iff.mp kept).1).2
  apply Declarations.exists_foldlM p.items Declarations.of_empty nodup
  intro q member
  exact knows q (List.mem_filterMap.mpr ⟨.prototype q, member, rfl⟩)

end Tally

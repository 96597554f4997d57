import Tally.Program.Placeless
import Tally.Proofs.Program.Compiled
import Tally.Proofs.Program.Outcomes
import Mathlib.Data.List.Nodup

namespace Tally

attribute [ext] Assembly

section Positions

variable (scope : Scope)

theorem Expr.length_allPlaceless (es : List Expr) : (Expr.allPlaceless es).length = es.length := by
  induction es with
  | nil => rfl
  | cons e es ih => exact congrArg Nat.succ ih

mutual

theorem Expr.code_placeless :
    ∀ (e : Expr) (depth : Nat), e.placeless.code scope depth = e.code scope depth
  | .int .., _ => rfl
  | .ident _, _ => rfl
  | .add left _ right, depth => by
    rw [Expr.placeless, Expr.code, Expr.code, Expr.code_placeless left,
      Expr.code_placeless right]
  | .call callee _ args, depth => by
    rw [Expr.placeless, Expr.code, Expr.code, Expr.length_allPlaceless,
      Expr.codeArgs_placeless args, Expr.code_placeless callee]

theorem Expr.codeArgs_placeless : ∀ (es : List Expr) (depth : Nat),
    Expr.codeArgs scope depth (Expr.allPlaceless es) = Expr.codeArgs scope depth es
  | [], _ => rfl
  | e :: es, depth => by
    rw [Expr.allPlaceless, Expr.codeArgs, Expr.codeArgs, Expr.length_allPlaceless,
      Expr.codeArgs_placeless es, Expr.code_placeless e]

end

end Positions

mutual

theorem Stmt.labelCount_placeless : ∀ s : Stmt, s.placeless.labelCount = s.labelCount
  | .block _ body => Stmt.labelCountAll_placeless body
  | .loop _ _ body => by
    rw [Stmt.placeless, Stmt.labelCount, Stmt.labelCount, Stmt.labelCount_placeless body]
  | .ret .. => rfl
  | .eval _ => rfl

theorem Stmt.labelCountAll_placeless :
    ∀ ss : List Stmt, Stmt.labelCountAll (Stmt.allPlaceless ss) = Stmt.labelCountAll ss
  | [] => rfl
  | s :: ss => by
    rw [Stmt.allPlaceless, Stmt.labelCountAll, Stmt.labelCountAll, Stmt.labelCount_placeless s,
      Stmt.labelCountAll_placeless ss]

end

mutual

theorem Stmt.code_placeless (scope : Scope) :
    ∀ (s : Stmt) (labels : Nat), s.placeless.code scope labels = s.code scope labels
  | .block _ body, labels => Stmt.codeAll_placeless scope.enterBlock body labels
  | .loop _ condition body, labels => by
    rw [Stmt.placeless, Stmt.code, Stmt.code, Expr.code_placeless scope condition,
      Stmt.code_placeless scope body]
  | .ret _ value, labels => by
    rw [Stmt.placeless, Stmt.code, Stmt.code, Expr.code_placeless scope value]
  | .eval e, labels => by
    rw [Stmt.placeless, Stmt.code, Stmt.code, Expr.code_placeless scope e]

theorem Stmt.codeAll_placeless (scope : Scope) : ∀ (ss : List Stmt) (labels : Nat),
    Stmt.codeAll scope labels (Stmt.allPlaceless ss) = Stmt.codeAll scope labels ss
  | [], _ => rfl
  | s :: ss, labels => by
    rw [Stmt.allPlaceless, Stmt.codeAll, Stmt.codeAll, Stmt.labelCount_placeless,
      Stmt.code_placeless scope s, Stmt.codeAll_placeless scope ss]

end

structure Scope.Agrees (s t : Scope) : Prop where
  resolve : ∀ name, s.resolve name = t.resolve name
  paramCount : s.paramCount = t.paramCount

theorem Scope.Agrees.enterBlock {s t : Scope} (agree : s.Agrees t) :
    s.enterBlock.Agrees t.enterBlock := ⟨agree.resolve, agree.paramCount⟩

section Scopes

variable {s t : Scope}

mutual

theorem Expr.code_congr (agree : s.Agrees t) :
    ∀ (e : Expr) (depth : Nat), e.code s depth = e.code t depth
  | .int .., _ => rfl
  | .ident name, depth => by
    rw [Expr.code, Expr.code, agree.resolve]
  | .add left _ right, depth => by
    rw [Expr.code, Expr.code, Expr.code_congr agree left, Expr.code_congr agree right]
  | .call callee _ args, depth => by
    rw [Expr.code, Expr.code, Expr.codeArgs_congr agree args, Expr.code_congr agree callee]

theorem Expr.codeArgs_congr (agree : s.Agrees t) :
    ∀ (es : List Expr) (depth : Nat), Expr.codeArgs s depth es = Expr.codeArgs t depth es
  | [], _ => rfl
  | e :: es, depth => by
    rw [Expr.codeArgs, Expr.codeArgs, Expr.codeArgs_congr agree es, Expr.code_congr agree e]

end

end Scopes

mutual

theorem Stmt.code_congr {s t : Scope} (agree : s.Agrees t) :
    ∀ (stmt : Stmt) (labels : Nat), stmt.code s labels = stmt.code t labels
  | .block _ body, labels => Stmt.codeAll_congr agree.enterBlock body labels
  | .loop _ condition body, labels => by
    rw [Stmt.code, Stmt.code, Expr.code_congr agree condition, Stmt.code_congr agree body]
  | .ret _ value, labels => by
    rw [Stmt.code, Stmt.code, Expr.code_congr agree value, agree.paramCount]
  | .eval e, labels => by
    rw [Stmt.code, Stmt.code, Expr.code_congr agree e]

theorem Stmt.codeAll_congr {s t : Scope} (agree : s.Agrees t) :
    ∀ (ss : List Stmt) (labels : Nat), Stmt.codeAll s labels ss = Stmt.codeAll t labels ss
  | [], _ => rfl
  | stmt :: ss, labels => by
    rw [Stmt.codeAll, Stmt.codeAll, Stmt.code_congr agree stmt, Stmt.codeAll_congr agree ss]

end

theorem Header.paramNames_placeless (h : Header) : h.placeless.paramNames = h.paramNames := by
  unfold paramNames placeless
  rw [List.map_map]
  rfl

theorem Definition.name_placeless (f : Definition) :
    f.placeless.header.name.text = f.header.name.text := rfl

theorem Prototype.name_placeless (r : Prototype) :
    r.placeless.header.name.text = r.header.name.text := rfl

theorem Prototype.primitive_placeless (r : Prototype) : r.placeless.primitive = r.primitive := rfl

theorem Definition.labelCounts_placeless (fs : List Definition) :
    labelCounts (fs.map Definition.placeless) = labelCounts fs := by
  induction fs with
  | nil => rfl
  | cons f fs ih =>
    have body : f.placeless.block.labelCount = f.block.labelCount :=
      f.block.labelCount_placeless
    rw [List.map_cons, labelCounts, labelCounts, body, ih]

def Definition.waiting : Definition × Label → Definition × Label := Prod.map Definition.placeless id

theorem Definition.segment_waiting {s t : Scope}
    (agree : ∀ params, (s.enterFunction params).Agrees (t.enterFunction params)) (f : Definition)
    (labels : Nat) (entry : Label) :
    f.placeless.segment s labels entry = f.segment t labels entry := by
  have params : f.placeless.header.params.length = f.header.params.length := List.length_map _
  have names : f.placeless.header.paramNames = f.header.paramNames := f.header.paramNames_placeless
  have body : f.placeless.block = f.block.placeless := rfl
  unfold segment
  rw [params, names, body, Stmt.code_placeless, Stmt.code_congr (agree _)]

theorem Definition.segments_waiting {s t : Scope}
    (agree : ∀ params, (s.enterFunction params).Agrees (t.enterFunction params))
    (fs : List (Definition × Label)) (labels : Nat) :
    segments s labels (fs.map waiting) = segments t labels fs := by
  induction fs generalizing labels with
  | nil => rfl
  | cons pair fs ih =>
    obtain ⟨f, entry⟩ := pair
    have first : f.placeless.segment s labels entry = f.segment t labels entry :=
      Definition.segment_waiting agree f labels entry
    have body : f.placeless.block.labelCount = f.block.labelCount :=
      f.block.labelCount_placeless
    have rest := ih (labels + f.block.labelCount)
    rw [← body] at rest
    change f.placeless.segment s labels entry ::
      segments s (labels + f.placeless.block.labelCount) (fs.map waiting) = _
    rw [first, rest, body, segments]

namespace Program

variable {p q : Program}

theorem declaration?_of_mem (nodup : (namesOf p.items).Nodup) {item : Item}
    (member : item ∈ p.items) {name : String} (named : item.name? = some name) :
    p.declaration? name = some item := by
  unfold declaration?
  generalize p.items = items at nodup member
  induction items with
  | nil => cases member
  | cons first items ih =>
    rcases List.mem_cons.mp member with rfl | member
    · exact List.find?_cons_of_pos (decide_eq_true named)
    · have inside : name ∈ namesOf items := List.mem_filterMap.mpr ⟨item, member, named⟩
      have other : first.name? ≠ some name := by
        intro same
        rw [namesOf, List.filterMap_cons_some same, List.nodup_cons] at nodup
        exact nodup.1 inside
      have later : (namesOf items).Nodup := by
        have sublist : (namesOf items).Sublist (namesOf (first :: items)) :=
          (List.sublist_cons_self first items).filterMap _
        exact nodup.sublist sublist
      rw [List.find?_cons_of_neg (by simpa using other)]
      exact ih later member

theorem nodup_of_kept (kept : p.violations = []) : (namesOf p.items).Nodup :=
  (Globals.nodup_of_repeated (List.append_eq_nil_iff.mp kept).1).2

theorem definition_names_sublist (items : List Item) :
    ((mk items).definitions.map fun f => f.header.name.text).Sublist (namesOf items) := by
  induction items with
  | nil => exact List.Sublist.refl []
  | cons item items ih =>
    cases item with
    | definition f => exact ih.cons_cons f.header.name.text
    | prototype r => exact ih.cons r.header.name.text
    | stmt s => exact ih

theorem prototype_names_sublist (items : List Item) :
    ((mk items).prototypes.map fun r => r.header.name.text).Sublist (namesOf items) := by
  induction items with
  | nil => exact List.Sublist.refl []
  | cons item items ih =>
    cases item with
    | definition f => exact ih.cons f.header.name.text
    | prototype r => exact ih.cons_cons r.header.name.text
    | stmt s => exact ih

theorem mem_items_of_definition {f : Definition} (member : f ∈ p.definitions) :
    .definition f ∈ p.items := by
  obtain ⟨item, inside, same⟩ := List.mem_filterMap.mp member
  cases item <;> cases same
  exact inside

theorem mem_items_of_prototype {r : Prototype} (member : r ∈ p.prototypes) :
    .prototype r ∈ p.items := by
  obtain ⟨item, inside, same⟩ := List.mem_filterMap.mp member
  cases item <;> cases same
  exact inside

end Program

theorem Declarations.Of.exists_means {p : Program} {d : Declarations} (of : d.Of p) {name : String}
    {item : Item} (declared : p.declaration? name = some item) :
    ∃ b, d.scope.globals.lookup name = some b ∧ b.Means p item := by
  have related := of.bound name
  rw [declared] at related
  cases bound : d.scope.globals.lookup name with
  | none =>
    rw [bound] at related
    cases related
  | some b =>
    rw [bound] at related
    cases related with
    | some means => exact ⟨b, rfl, means⟩

theorem index_unique {α β : Type} {f : α → β} {as : List α} (nodup : (as.map f).Nodup) {i j : Nat}
    {a : α} (here : as[i]? = some a) (there : as[j]? = some a) : i = j := by
  have inside : i < as.length := (List.getElem?_eq_some_iff.mp here).1
  exact (List.getElem?_inj inside (List.Nodup.of_map f nodup)).mp (here.trans there.symm)

theorem Binding.Means.unique {p : Program} (nodup : (namesOf p.items).Nodup) {item : Item}
    {b b' : Binding} (means : b.Means p item) (means' : b'.Means p item) : b = b' := by
  cases means with
  | function here =>
    cases means' with
    | function there =>
      rw [index_unique (nodup.sublist (Program.definition_names_sublist p.items)) here there]
  | native here =>
    cases means' with
    | native there =>
      rw [index_unique (nodup.sublist (Program.prototype_names_sublist p.items)) here there]

theorem exists_getElem?_of_map_eq {α β : Type} {f : α → β} {as bs : List α}
    (same : as.map f = bs.map f) {i : Nat} {a : α} (here : as[i]? = some a) :
    ∃ b, bs[i]? = some b ∧ f b = f a := by
  have entry := congrArg (·[i]?) same
  simp only [List.getElem?_map, here, Option.map_some] at entry
  exact Option.map_eq_some_iff.mp entry.symm

namespace Program.Rearranges

variable {p q : Program}

theorem exists_means (same : p.Rearranges q) {b : Binding} {item : Item} (means : b.Means p item) :
    ∃ item' ∈ q.items, item'.name? = item.name? ∧ b.Means q item' := by
  cases means with
  | @function i f here =>
    obtain ⟨g, there, alike⟩ := exists_getElem?_of_map_eq same.definitions here
    have names : g.header.name.text = f.header.name.text := by
      rw [← g.name_placeless, alike, f.name_placeless]
    exact ⟨.definition g, mem_items_of_definition (List.mem_of_getElem? there),
      congrArg some names, .function there⟩
  | @native i r here =>
    obtain ⟨s, there, alike⟩ := exists_getElem?_of_map_eq same.prototypes here
    have names : s.header.name.text = r.header.name.text := by
      rw [← s.name_placeless, alike, r.name_placeless]
    refine ⟨.prototype s, mem_items_of_prototype (List.mem_of_getElem? there),
      congrArg some names, ?_⟩
    rw [← names]
    exact .native there

theorem lookup_of_some (same : p.Rearranges q) (kept : q.violations = []) {d d' : Declarations}
    (of : d.Of p) (of' : d'.Of q) {name : String} {b : Binding}
    (bound : d.scope.globals.lookup name = some b) : d'.scope.globals.lookup name = some b := by
  have nodup := nodup_of_kept kept
  obtain ⟨item, found, means⟩ := of.means bound
  obtain ⟨item', member, names, means'⟩ := same.exists_means means
  have named : item'.name? = some name := names.trans (name_of_declaration? found)
  -- The name is declared once there, so nothing else can be bound to it.
  obtain ⟨b', bound', other⟩ := of'.exists_means (declaration?_of_mem nodup member named)
  rw [bound', other.unique nodup means']

theorem lookup_eq (same : p.Rearranges q) (kept : p.violations = []) (kept' : q.violations = [])
    {d d' : Declarations} (of : d.Of p) (of' : d'.Of q) (name : String) :
    d.scope.globals.lookup name = d'.scope.globals.lookup name := by
  cases bound : d.scope.globals.lookup name with
  | some b => exact (same.lookup_of_some kept' of of' bound).symm
  | none =>
    cases bound' : d'.scope.globals.lookup name with
    | none => rfl
    | some b => exact bound.symm.trans (same.symm.lookup_of_some kept of' of bound')

variable {d d' : Declarations}

theorem agrees (same : p.Rearranges q) (kept : p.violations = []) (kept' : q.violations = [])
    (of : d.Of p) (of' : d'.Of q) : d.scope.Agrees d'.scope where
  resolve name := by
    rw [of.resolve_top, of'.resolve_top, same.lookup_eq kept kept' of of']
  paramCount := by
    unfold Scope.paramCount
    rw [of.top, of'.top]

theorem agrees_enterFunction (same : p.Rearranges q) (kept : p.violations = [])
    (kept' : q.violations = []) (of : d.Of p) (of' : d'.Of q) (params : List String) :
    (d.scope.enterFunction params).Agrees (d'.scope.enterFunction params) where
  resolve name := by
    rw [of.resolve_body, of'.resolve_body, (same.agrees kept kept' of of').resolve]
  paramCount := rfl

theorem pending (same : p.Rearranges q) (of : d.Of p) (of' : d'.Of q) :
    d.pending.toList.map Definition.waiting = d'.pending.toList.map Definition.waiting := by
  have waiting (fs : List Definition) :
      fs.zipIdx.map Definition.waiting = (fs.map Definition.placeless).zipIdx :=
    List.zipIdx_map.symm
  rw [of.pending, of'.pending, waiting, waiting, same.definitions]

theorem natives (same : p.Rearranges q) (of : d.Of p) (of' : d'.Of q) : d.natives = d'.natives := by
  have native (rs : List Prototype) :
      rs.map Prototype.native = (rs.map Prototype.placeless).map Prototype.native := by
    rw [List.map_map]
    apply List.map_congr_left
    intro r _
    unfold Function.comp Prototype.native Prototype.placeless Header.placeless
    dsimp only
    rw [List.length_map]
    rfl
  apply Array.ext'
  rw [of.natives, of'.natives, native, same.prototypes, ← native]

theorem topSegment_eq (same : p.Rearranges q) {s t : Scope} (agree : s.Agrees t) (labels : Nat) :
    p.topSegment s labels = q.topSegment t labels := by
  unfold topSegment
  rw [← Stmt.codeAll_placeless, same.statements, Stmt.codeAll_placeless, Stmt.codeAll_congr agree]

theorem assembled_eq (same : p.Rearranges q) (kept : p.violations = []) (kept' : q.violations = [])
    (of : d.Of p) (of' : d'.Of q) : p.assembled d = q.assembled d' := by
  have pending := same.pending of of'
  have count : d.pending.size = d'.pending.size := by
    rw [← Array.length_toList, ← Array.length_toList, ← List.length_map, pending, List.length_map]
  have loops : Stmt.labelCountAll p.statements = Stmt.labelCountAll q.statements := by
    rw [← Stmt.labelCountAll_placeless, same.statements, Stmt.labelCountAll_placeless]
  have inner : Definition.labelCounts p.definitions = Definition.labelCounts q.definitions := by
    rw [← Definition.labelCounts_placeless, same.definitions, Definition.labelCounts_placeless]
  have segments : p.segments d = q.segments d' := by
    unfold Program.segments
    have agree := agrees_enterFunction same kept kept' of of'
    have own (params : List String) :
        (d.scope.enterFunction params).Agrees (d.scope.enterFunction params) :=
      ⟨fun _ => rfl, rfl⟩
    rw [same.topSegment_eq (same.agrees kept kept' of of'), ← Definition.segments_waiting own,
      pending, Definition.segments_waiting agree, count, loops]
  have functions : (p.assembled d).functions = (q.assembled d').functions := by
    have entry (fs : List (Definition × Label)) :
        fs.map (fun pair =>
          (⟨pair.1.header.name.text, pair.2, pair.1.header.params.length⟩ : AssemblyFunction)) =
        (fs.map Definition.waiting).map fun pair =>
          ⟨pair.1.header.name.text, pair.2, pair.1.header.params.length⟩ := by
      rw [List.map_map]
      apply List.map_congr_left
      intro pair _
      simp [Definition.waiting, Definition.placeless, Header.placeless, Ident.placeless]
    exact (entry _).trans ((congrArg _ pending).trans (entry _).symm)
  have lines : (p.assembled d).lines = (q.assembled d').lines :=
    congrArg (fun ss => (linesOf ss).toArray) segments
  have labels : (p.assembled d).labels = (q.assembled d').labels := by
    change d.pending.size + _ + _ = d'.pending.size + _ + _
    rw [count, loops, inner]
  have natives : (p.assembled d).natives = (q.assembled d').natives := same.natives of of'
  exact Assembly.ext lines labels functions natives

theorem firstRefused? (same : p.Rearranges q) (known : PrimitiveNames) :
    (p.firstRefused? known).map Prototype.placeless =
      (q.firstRefused? known).map Prototype.placeless := by
  have stripped (rs : List Prototype) :
      (rs.find? fun r => !known.gives r.primitive).map Prototype.placeless =
        (rs.map Prototype.placeless).find? fun r => !known.gives r.primitive := by
    rw [List.find?_map]
    rfl
  unfold Program.firstRefused?
  rw [stripped, stripped, same.prototypes]

end Program.Rearranges

/-- What compiling two programs comes to that differ in the placement of their items. Besides code
and missing primitives there are registries that fail by themselves, code with a number of more
than 32 bits, and trees with literals that no text has. -/
inductive Program.Concur (p q : Program) (known : PrimitiveNames) :
    Except CompileFault Code → Except CompileFault Code → Prop where
  | code (c : Code) : Concur p q known (.ok c) (.ok c)
  | missing {r s : Prototype} (first : p.firstRefused? known = some r)
    (first' : q.firstRefused? known = some s) (same : r.placeless = s.placeless)
    (answer : known r.primitive = .ok false) : Concur p q known (.error r.missing) (.error s.missing)
  | failing {r : Prototype} {message : String} (first : p.firstRefused? known = some r)
    (answer : known r.primitive = .error message) :
    Concur p q known (.error (.lowering (.registry message)))
      (.error (.lowering (.registry message)))
  | large {v : Nat} (tooLarge : 2 ^ 32 ≤ v) (long : v ≤ p.extent) :
    Concur p q known (.error (.label (.operand (.count v)))) (.error (.label (.operand (.count v))))
  | literal {e : LabelFault} (wide : ¬ p.LiteralsFit) :
    Concur p q known (.error (.label e)) (.error (.label e))

namespace Program

variable {p q : Program} {known : PrimitiveNames}

theorem concur_of_refused (same : p.Rearranges q) (kept : p.violations = [])
    (kept' : q.violations = []) {r : Prototype} (first : p.firstRefused? known = some r)
    (filename : String) :
    p.Concur q known (p.compile known filename) (q.compile known filename) := by
  have firsts := same.firstRefused? known
  rw [first, Option.map_some] at firsts
  obtain ⟨s, first', alike⟩ := Option.map_eq_some_iff.mp firsts.symm
  have primitive : s.primitive = r.primitive := by
    rw [← s.primitive_placeless, alike, r.primitive_placeless]
  rw [compile_of_refused kept first, compile_of_refused kept' first']
  unfold Prototype.refusal
  rw [primitive]
  rcases p.answer_of_firstRefused? first with answer | ⟨message, answer⟩
  · have missing : s.missing =
        .lowering (.unknownPrimitive r.primitive s.header.name.text s.header.word) := by
      rw [Prototype.missing, primitive]
    rw [answer]
    have both := Concur.missing first first' alike.symm answer
    rw [missing] at both
    exact both
  · rw [answer]
    exact Concur.failing first answer

/-- Where every primitive is given, the code is the same, or linking fails in the same way. -/
theorem compile_eq_of_given (same : p.Rearranges q) (kept : p.violations = [])
    (kept' : q.violations = []) (given : p.firstRefused? known = none) (filename : String) :
    p.compile known filename = q.compile known filename := by
  have given' : q.firstRefused? known = none := by
    have firsts := same.firstRefused? known
    rw [given, Option.map_none] at firsts
    exact Option.map_eq_none_iff.mp firsts.symm
  obtain ⟨d, declared⟩ := exists_declarations kept (known_of_firstRefused?_eq_none given)
  obtain ⟨d', declared'⟩ := exists_declarations kept' (known_of_firstRefused?_eq_none given')
  have of := Declarations.of_ofProgram declared
  have of' := Declarations.of_ofProgram declared'
  unfold compile
  rw [assembly_eq kept declared, assembly_eq kept' declared', same.assembled_eq kept kept' of of']

theorem exists_assembly_of_given (kept : p.violations = []) (given : p.firstRefused? known = none) :
    ∃ a, p.assembly known = .ok a := by
  obtain ⟨d, declared⟩ := exists_declarations kept (known_of_firstRefused?_eq_none given)
  exact ⟨_, assembly_eq kept declared⟩

/-- Declarations may stand anywhere. -/
theorem compile_concurs (same : p.Rearranges q) (kept : p.violations = []) (kept' : q.violations = [])
    (known : PrimitiveNames) (filename : String) :
    p.Concur q known (p.compile known filename) (q.compile known filename) := by
  cases first : p.firstRefused? known with
  | some r => exact concur_of_refused same kept kept' first filename
  | none =>
    rw [← compile_eq_of_given same kept kept' first filename]
    by_cases fit : p.LiteralsFit
    · obtain ⟨d, of, ⟨v, failed, tooLarge, mentions⟩ | ⟨_, c, compiled, _⟩⟩ :=
        exists_linking kept fit (known_of_firstRefused?_eq_none first) filename
      · rw [failed]
        exact Concur.large tooLarge (mentions_le_extent of kept mentions)
      · rw [compiled]
        exact Concur.code c
    · obtain ⟨a, made⟩ := exists_assembly_of_given kept first
      unfold compile
      rw [made]
      cases linked : a.link filename with
      | ok c =>
        simp only [linked]
        exact Concur.code c
      | error e =>
        simp only [linked]
        exact Concur.literal fit

def echo (here : Position) : Definition where
  header := ⟨here, ⟨"echo", here⟩, [⟨⟨"n", here⟩, ⟨"int", here⟩⟩], ⟨"int", here⟩⟩
  brace := here
  body := [.ret here (.call (.ident ⟨"print", here⟩) here [.ident ⟨"n", here⟩])]

def printing (here : Position) : Prototype where
  header := ⟨here, ⟨"print", here⟩, [⟨⟨"x", here⟩, ⟨"int", here⟩⟩], ⟨"int", here⟩⟩
  primitive := "print_int"

def echoCall (here : Position) : Stmt := .eval (.call (.ident ⟨"echo", here⟩) here [.int "7" here])

def calledFirst : Program :=
  ⟨[.stmt (echoCall ⟨0, 0, 0⟩), .definition (echo ⟨8, 1, 0⟩), .prototype (printing ⟨50, 2, 0⟩)]⟩

def calledLast : Program :=
  ⟨[.prototype (printing ⟨0, 0, 0⟩), .definition (echo ⟨38, 1, 0⟩), .stmt (echoCall ⟨80, 2, 0⟩)]⟩

theorem compile_concurs_sample :
    calledFirst.Rearranges calledLast ∧ calledFirst.violations = [] ∧ calledLast.violations = [] ∧
    (∃ c, calledFirst.compile (Registry.builtins Memory.channel).knows "sample" = .ok c ∧
      calledLast.compile (Registry.builtins Memory.channel).knows "sample" = .ok c) ∧
    calledFirst.Concur calledLast (Registry.empty : Registry Memory).knows
      (calledFirst.compile (Registry.empty : Registry Memory).knows "sample")
      (calledLast.compile (Registry.empty : Registry Memory).knows "sample") := by
  have same : calledFirst.Rearranges calledLast := ⟨rfl, rfl, rfl⟩
  have kept : calledFirst.violations = [] := by decide +kernel
  have kept' : calledLast.violations = [] := by decide +kernel
  refine ⟨same, kept, kept', ?_, compile_concurs same kept kept' _ _⟩
  have compiled : (calledFirst.compile (Registry.builtins Memory.channel).knows "sample").isOk =
      true := by decide +kernel
  have concur := compile_concurs same kept kept' (Registry.builtins Memory.channel).knows "sample"
  generalize calledFirst.compile _ _ = outcome at compiled concur ⊢
  generalize calledLast.compile _ _ = outcome' at concur ⊢
  cases concur with
  | code c => exact ⟨c, rfl, rfl⟩
  | missing | failing | large | literal => cases compiled

end Program

end Tally

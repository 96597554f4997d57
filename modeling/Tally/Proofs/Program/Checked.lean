import Tally.Program.Lawful
import Tally.Proofs.Program.Kept
import Tally.Run
import Mathlib.Algebra.Order.Group.Multiset
import Mathlib.Tactic.Abel

namespace Tally

section Repeats

variable {α β : Type} [DecidableEq β] {key : α → β}

def repeatsAfter (key : α → β) (before : List β) : List α → List α
  | [] => []
  | a :: as =>
    if key a ∈ before then a :: repeatsAfter key (key a :: before) as
    else repeatsAfter key (key a :: before) as

theorem repeatsAfter_eq_filter (before : List β) (as : List α) :
    repeatsAfter key before as =
      (as.zipIdx.filter fun (a, i) => key a ∈ before ∨ key a ∈ (as.take i).map key).map
        Prod.fst := by
  induction as generalizing before with
  | nil => rfl
  | cons a as ih =>
    -- An entry of the rest has the first entry before it, so its place is one more.
    have later : (fun x : α × Nat => decide (key x.1 ∈ before ∨ key x.1 ∈
        ((a :: as).take (x.2 + 1)).map key)) =
        fun x => decide (key x.1 ∈ key a :: before ∨ key x.1 ∈ (as.take x.2).map key) := by
      funext x
      simp only [List.take_succ_cons, List.map_cons, List.mem_cons]
      grind
    have tail : ((as.zipIdx 1).filter fun x => decide (key x.1 ∈ before ∨ key x.1 ∈
        ((a :: as).take x.2).map key)).map Prod.fst = repeatsAfter key (key a :: before) as := by
      rw [ih, List.zipIdx_succ, List.filter_map, List.map_map]
      exact congrArg (fun keep => (as.zipIdx.filter keep).map Prod.fst) later
    rw [List.zipIdx_cons, List.filter_cons, repeatsAfter, ← tail]
    simp only [List.take_zero, List.map_nil, List.not_mem_nil, or_false]
    split <;> simp_all

theorem repeats_eq_repeatsAfter (as : List α) : repeats key as = repeatsAfter key [] as := by
  simp only [repeats, repeatsAfter_eq_filter, List.not_mem_nil, false_or]

theorem repeatsAfter_eq_nil {before : List β} {as : List α} :
    repeatsAfter key before as = [] ↔ (∀ a ∈ as, key a ∉ before) ∧ (as.map key).Nodup := by
  induction as generalizing before with
  | nil => simp [repeatsAfter]
  | cons a as ih =>
    by_cases old : key a ∈ before
    · simp [repeatsAfter, old]
    · rw [repeatsAfter, if_neg old, ih, List.map_cons, List.nodup_cons]
      grind

theorem repeats_eq_nil {as : List α} : repeats key as = [] ↔ (as.map key).Nodup := by
  simp [repeats_eq_repeatsAfter, repeatsAfter_eq_nil]

end Repeats

theorem filterMap_one {α β : Type} (f : α → Option β) (a : α) :
    [a].filterMap f = (f a).toList := by
  rw [List.filterMap_eq_flatMap_toList, List.flatMap_singleton]

theorem Item.signature?_of_header? {item : Item} {h : Header} (header : item.header? = some h) :
    ∃ s, item.signature? = some s ∧ s.arity = h.params.length := by
  cases item <;> cases header <;> exact ⟨_, rfl, rfl⟩

theorem Globals.declares_declare {g : Globals} {item : Item} {h : Header}
    (header : item.header? = some h) (name : String) :
    (g.declare item).declares name = true ↔ name = h.name.text ∨ g.declares name = true := by
  obtain ⟨s, signature, _⟩ := Item.signature?_of_header? header
  unfold Globals.declares
  rw [Globals.lookup_declare, Item.name?, header, signature]
  cases g.lookup name with
  | some s' => simp
  | none =>
    by_cases same : h.name.text = name
    · simp [same]
    · simp [same, Ne.symm same]

theorem Globals.repeated_eq {g : Globals} {before : List String}
    (old : ∀ name, g.declares name = true ↔ name ∈ before) (items : List Item) :
    g.repeated items =
      (repeatsAfter (fun h : Header => h.name.text) before (items.filterMap Item.header?)).map
        fun h => ⟨.repeatedDeclaration h.name.text, h.name.position⟩ := by
  induction items generalizing g before with
  | nil => rfl
  | cons item items ih =>
    cases header : item.header? with
    | none =>
      have same : g.declare item = g := by simp only [declare, header]
      rw [List.filterMap_cons_none header, repeated, header, same]
      exact ih old
    | some h =>
      have rest := @ih (g.declare item) (h.name.text :: before) fun name => by
        rw [declares_declare header, List.mem_cons, old]
      rw [List.filterMap_cons_some header, repeated, header, repeatsAfter]
      simp only [rest, old]
      split <;> rfl

theorem Header.repeatedParams_eq (h : Header) : h.repeatedParams = h.repeatsOfParams := by
  have go (before : List String) (ps : List Param) : Header.repeatedParams.go h before ps =
      (repeatsAfter (fun q : Param => q.name.text) before ps).map fun q =>
        ⟨.repeatedParam q.name.text h.name.text, q.name.position⟩ := by
    induction ps generalizing before with
    | nil => rfl
    | cons p ps ih =>
      simp only [Header.repeatedParams.go, repeatsAfter, ih, List.contains_iff_mem]
      split <;> rfl
  rw [repeatedParams, go, repeatsOfParams, repeats_eq_repeatsAfter]

namespace Program

variable (p : Program)

theorem find?_headers (name : String) :
    p.headers.find? (fun h => h.name.text = name) = (p.declaration? name).bind Item.header? := by
  unfold headers declaration?
  induction p.items with
  | nil => rfl
  | cons item items ih =>
    cases header : item.header? with
    | none =>
      have nameless : item.name? = none := by rw [Item.name?, header]; rfl
      rw [List.filterMap_cons_none header, ih, List.find?_cons, nameless]
      rfl
    | some h =>
      have named : item.name? = some h.name.text := by rw [Item.name?, header]; rfl
      rw [List.filterMap_cons_some header, List.find?_cons, List.find?_cons, ih, named]
      by_cases same : h.name.text = name
      · simp [same, header]
      · simp [same]

theorem header_of_declaration? {name : String} {item : Item}
    (found : p.declaration? name = some item) : ∃ h, item.header? = some h := by
  obtain ⟨h, header, _⟩ := Option.map_eq_some_iff.mp (name_of_declaration? found)
  exact ⟨h, header⟩

theorem isSome_declaration? (name : String) :
    (p.declaration? name).isSome ↔ ∃ h ∈ p.headers, h.name.text = name := by
  rw [← decide_eq_true_iff (p := ∃ h ∈ p.headers, h.name.text = name)]
  have found := p.find?_headers name
  cases declared : p.declaration? name with
  | none =>
    rw [declared, Option.bind_none, List.find?_eq_none] at found
    simpa using found
  | some item =>
    obtain ⟨h, header⟩ := p.header_of_declaration? declared
    rw [declared, Option.bind_some, header] at found
    have member := List.mem_of_find?_eq_some found
    have named := List.find?_some found
    simpa using ⟨h, member, by simpa using named⟩

def surroundings (params : List String) (inFunction : Bool) : Surroundings :=
  ⟨Globals.declareAll [] p.items, params, inFunction⟩

variable {params : List String} {inFunction : Bool}

theorem knows_iff (name : String) : (p.surroundings params inFunction).knows name = true ↔
    name ∈ params ∨ (p.declaration? name).isSome := by
  simp [surroundings, Surroundings.knows, Globals.declares_declareAll]

theorem breach?_ident (name : Ident) :
    (Expr.ident name).violations (p.surroundings params inFunction) =
      (p.breach? params (.ident name)).toList := by
  simp only [Expr.violations, breach?, knows_iff]
  split <;> rfl

theorem breach?_call (callee : Expr) (paren : Position) (args : List Expr) :
    (p.surroundings params inFunction).arityViolations callee paren args.length =
      (p.breach? params (.call callee paren args)).toList := by
  cases callee with
  | int | add | call => rfl
  | ident name =>
    by_cases hidden : name.text ∈ params
    · simp [Surroundings.arityViolations, Surroundings.declared?, surroundings, breach?, hidden]
    · have found : (p.surroundings params inFunction).declared? (.ident name) =
          ((p.declaration? name.text).bind Item.signature?).map fun s => (name.text, s) := by
        simp [Surroundings.declared?, surroundings, hidden, Globals.lookup_declareAll]
      rw [Surroundings.arityViolations, found, breach?, if_neg hidden]
      cases (p.declaration? name.text).bind Item.signature? with
      | none => rfl
      | some s =>
        simp only [Option.map_some, eq_comm (a := s.arity)]
        split <;> rfl

mutual

theorem violations_of_expr : ∀ e : Expr,
    e.violations (p.surroundings params inFunction) = e.subterms.filterMap (p.breach? params)
  | .int .. => rfl
  | .ident name => by
    rw [breach?_ident, Expr.subterms, filterMap_one]
  | .add left plus right => by
    rw [Expr.violations, violations_of_expr left, violations_of_expr right, Expr.subterms,
      List.filterMap_append, List.filterMap_append]
    exact (List.append_nil _).symm
  | .call callee paren args => by
    rw [Expr.violations, violations_of_expr callee, violations_of_exprs args, breach?_call,
      Expr.subterms, List.filterMap_append, List.filterMap_append, filterMap_one]

theorem violations_of_exprs : ∀ es : List Expr,
    Expr.violationsOfAll (p.surroundings params inFunction) es =
      (Expr.allSubterms es).filterMap (p.breach? params)
  | [] => rfl
  | e :: es => by
    rw [Expr.violationsOfAll, violations_of_expr e, violations_of_exprs es, Expr.allSubterms,
      List.filterMap_append]

end

def ownViolations (params : List String) (inFunction : Bool) (s : Stmt) : List Violation :=
  (if inFunction then [] else s.stray?.toList) ++
    (s.operands.flatMap Expr.subterms).filterMap (p.breach? params)

mutual

theorem violations_of_stmt : ∀ s : Stmt,
    s.violations (p.surroundings params inFunction) =
      s.parts.flatMap (p.ownViolations params inFunction)
  | .block brace body => by
    have own : p.ownViolations params inFunction (.block brace body) = [] := by
      simp [ownViolations, Stmt.stray?, Stmt.operands]
    rw [Stmt.violations, violations_of_stmts body, Stmt.parts, List.flatMap_cons, own,
      List.nil_append]
  | .loop word condition body => by
    have own : p.ownViolations params inFunction (.loop word condition body) =
        condition.subterms.filterMap (p.breach? params) := by
      simp [ownViolations, Stmt.stray?, Stmt.operands]
    rw [Stmt.violations, violations_of_expr, violations_of_stmt body, Stmt.parts,
      List.flatMap_cons, own]
  | .ret word value => by
    rw [Stmt.violations, violations_of_expr, Stmt.parts, List.flatMap_singleton]
    cases inFunction <;> simp [ownViolations, surroundings, Stmt.stray?, Stmt.operands]
  | .eval e => by
    rw [Stmt.violations, violations_of_expr, Stmt.parts, List.flatMap_singleton]
    simp [ownViolations, Stmt.stray?, Stmt.operands]

theorem violations_of_stmts : ∀ ss : List Stmt,
    Stmt.violationsOfAll (p.surroundings params inFunction) ss =
      (Stmt.allParts ss).flatMap (p.ownViolations params inFunction)
  | [] => rfl
  | s :: ss => by
    rw [Stmt.violationsOfAll, violations_of_stmt s, violations_of_stmts ss, Stmt.allParts,
      List.flatMap_append]

end

theorem filterMap_subterms (b : Body) :
    b.subterms.filterMap (p.breach? b.params) =
      b.parts.flatMap fun s => (s.operands.flatMap Expr.subterms).filterMap (p.breach? b.params) := by
  simp only [Body.subterms, List.filterMap_eq_flatMap_toList, List.flatMap_assoc]

theorem violations_of_body (d : Definition) :
    d.block.violations (p.surroundings d.header.paramNames true) =
      d.asBody.subterms.filterMap (p.breach? d.asBody.params) :=
  (p.violations_of_stmts d.body).trans (p.filterMap_subterms d.asBody).symm

theorem violations_of_all (around : Surroundings) (ss : List Stmt) :
    Stmt.violationsOfAll around ss = ss.flatMap fun s => s.violations around := by
  induction ss with
  | nil => rfl
  | cons s ss ih => rw [Stmt.violationsOfAll, ih, List.flatMap_cons]

theorem violations_of_top :
    (p.statements.flatMap fun s => s.violations (p.surroundings [] false)).Perm
      (p.top.parts.filterMap Stmt.stray? ++
        p.top.subterms.filterMap (p.breach? p.top.params)) := by
  rw [← violations_of_all, violations_of_stmts, filterMap_subterms,
    List.filterMap_eq_flatMap_toList]
  exact (List.flatMap_append_perm _ _ _).symm

theorem flatMap_items {α : Type} (f : Item → List α) :
    (p.items.flatMap f).Perm (p.definitions.flatMap (fun d => f (.definition d)) ++
      p.prototypes.flatMap (fun q => f (.prototype q)) ++
      p.statements.flatMap fun s => f (.stmt s)) := by
  unfold definitions prototypes statements
  rw [← Multiset.coe_eq_coe]
  induction p.items with
  | nil => rfl
  | cons item items ih =>
    cases item <;>
      · simp only [List.flatMap_cons, List.filterMap_cons, ← Multiset.coe_add] at ih ⊢
        rw [ih]
        abel

theorem headers_flatMap (f : Header → List Violation) :
    (p.headers.flatMap f).Perm
      (p.definitions.flatMap (fun d => f d.header) ++ p.prototypes.flatMap fun q => f q.header) := by
  have kinds := p.flatMap_items fun item => item.header?.toList.flatMap f
  have headers : p.headers.flatMap f = p.items.flatMap fun item => item.header?.toList.flatMap f := by
    rw [Program.headers, List.filterMap_eq_flatMap_toList, List.flatMap_assoc]
  have none : (p.statements.flatMap fun s => (Item.stmt s).header?.toList.flatMap f) = [] :=
    List.flatMap_eq_nil_iff.mpr fun _ _ => rfl
  rw [none, List.append_nil] at kinds
  rw [headers]
  simpa only [Item.header?, Option.toList_some, List.flatMap_singleton] using kinds

theorem violations_of_definitions :
    (p.definitions.flatMap fun d => d.violations (Globals.declareAll [] p.items)).Perm
      (p.definitions.flatMap (fun d => d.header.repeatsOfParams) ++
        p.definitions.filterMap Definition.unended? ++
        p.definitions.flatMap fun d =>
          d.asBody.subterms.filterMap (p.breach? d.asBody.params)) := by
  have each (d : Definition) : d.violations (Globals.declareAll [] p.items) =
      d.header.repeatsOfParams ++ d.unended?.toList ++
        d.asBody.subterms.filterMap (p.breach? d.asBody.params) := by
    have ends : d.block.endsWithReturn = true ↔ EndsWithReturn d.body := EndsWithReturn.iff.symm
    rw [Definition.violations, Header.repeatedParams_eq, ← violations_of_body]
    simp only [ends, Definition.unended?]
    split <;> rfl
  rw [funext each, List.filterMap_eq_flatMap_toList Definition.unended?]
  exact (List.flatMap_append_perm _ _ _).symm.trans
    ((List.flatMap_append_perm _ _ _).symm.append_right _)

theorem violations_perm : p.violations.Perm p.breaches := by
  have names : Globals.repeated [] p.items = p.repeatsOfNames := by
    have fresh (name : String) : Globals.declares [] name = true ↔ name ∈ ([] : List String) := by
      simp [Globals.declares]
    rw [Globals.repeated_eq fresh, repeatsOfNames, repeats_eq_repeatsAfter]
    rfl
  have items := p.flatMap_items (Item.violations (Globals.declareAll [] p.items))
  have definitions := p.violations_of_definitions
  have headers := p.headers_flatMap Header.repeatsOfParams
  have top := p.violations_of_top
  unfold surroundings at top
  rw [violations, violationsAfter, breaches, names]
  simp only [Item.violations, Header.repeatedParams_eq, bodies, List.flatMap_cons, List.flatMap_map]
    at items ⊢
  simp only [← Multiset.coe_eq_coe, ← Multiset.coe_add] at items definitions headers top ⊢
  rw [items, definitions, top, headers]
  abel

theorem breach?_ident_eq_none {name : Ident} :
    p.breach? params (.ident name) = none ↔
      name.text ∈ params ∨ ∃ h ∈ p.headers, h.name.text = name.text := by
  rw [← isSome_declaration?, breach?]
  split <;> simp_all

theorem breach?_call_eq_none {name : Ident} {paren : Position} {args : List Expr} :
    p.breach? params (.call (.ident name) paren args) = none ↔
      (name.text ∉ params → ∀ h, p.headers.find? (fun h => h.name.text = name.text) = some h →
        args.length = h.params.length) := by
  rw [find?_headers, breach?]
  by_cases hidden : name.text ∈ params
  · simp [hidden]
  · cases declared : p.declaration? name.text with
    | none => simp [hidden]
    | some item =>
      obtain ⟨h, header⟩ := p.header_of_declaration? declared
      obtain ⟨s, signature, arity⟩ := Item.signature?_of_header? header
      simp [hidden, header, signature, arity]

theorem breaches_of_body_eq_nil {b : Body} :
    b.subterms.filterMap (p.breach? b.params) = [] ↔
      (∀ name, .ident name ∈ b.subterms →
        name.text ∈ b.params ∨ ∃ h ∈ p.headers, h.name.text = name.text) ∧
      ∀ name paren args, .call (.ident name) paren args ∈ b.subterms → name.text ∉ b.params →
        ∀ h, p.headers.find? (fun h => h.name.text = name.text) = some h →
          args.length = h.params.length := by
  rw [List.filterMap_eq_nil_iff]
  constructor
  · intro clean
    constructor
    · intro name member
      exact p.breach?_ident_eq_none.mp (clean _ member)
    · intro name paren args member
      exact p.breach?_call_eq_none.mp (clean _ member)
  · rintro ⟨known, arities⟩ e member
    match e with
    | .int .. | .add .. | .call (.int ..) .. | .call (.add ..) .. | .call (.call ..) .. => rfl
    | .ident name => exact p.breach?_ident_eq_none.mpr (known name member)
    | .call (.ident name) paren args =>
      exact p.breach?_call_eq_none.mpr (arities name paren args member)

theorem strays_eq_nil {ss : List Stmt} :
    ss.filterMap Stmt.stray? = [] ↔ ∀ word value, .ret word value ∉ ss := by
  rw [List.filterMap_eq_nil_iff]
  constructor
  · intro clean word value member
    cases clean _ member
  · intro clean s member
    cases s with
    | ret word value => exact absurd member (clean word value)
    | block | loop | eval => rfl

theorem unended_eq_nil {ds : List Definition} :
    ds.filterMap Definition.unended? = [] ↔ ∀ d ∈ ds, EndsWithReturn d.body := by
  simp [List.filterMap_eq_nil_iff, Definition.unended?]

theorem lawful_iff : p.Lawful ↔ p.breaches = [] := by
  have names : p.repeatsOfNames = [] ↔ (p.headers.map fun h => h.name.text).Nodup := by
    rw [repeatsOfNames, List.map_eq_nil_iff, repeats_eq_nil]
  have params : p.headers.flatMap Header.repeatsOfParams = [] ↔
      ∀ h ∈ p.headers, h.paramNames.Nodup := by
    simp only [List.flatMap_eq_nil_iff, Header.repeatsOfParams, List.map_eq_nil_iff,
      repeats_eq_nil, Header.paramNames]
  have bodies : (p.bodies.flatMap fun b => b.subterms.filterMap (p.breach? b.params)) = [] ↔ _ :=
    List.flatMap_eq_nil_iff.trans (forall₂_congr fun b _ => p.breaches_of_body_eq_nil)
  simp only [breaches, List.append_eq_nil_iff, names, params, unended_eq_nil, strays_eq_nil, bodies]
  constructor
  · intro lawful
    exact ⟨⟨⟨⟨lawful.names, lawful.params⟩, lawful.ends⟩, lawful.returns⟩,
      fun b member => ⟨lawful.known b member, lawful.arities b member⟩⟩
  · rintro ⟨⟨⟨⟨names, params⟩, ends⟩, returns⟩, bodies⟩
    exact ⟨names, params, fun b member => (bodies b member).1, fun b member => (bodies b member).2,
      returns, ends⟩

/-- A program is accepted exactly if it is lawful; else each place that breaks a rule is reported
once. -/
theorem check_exact :
    (p.check = .ok () ↔ p.Lawful) ∧
    ∀ o, p.check = .error o →
      ∃ first others, o = .violation first others ∧ (first :: others).Perm p.breaches := by
  have reported := p.violations_perm
  rw [lawful_iff, check]
  cases found : p.violations with
  | nil =>
    rw [found] at reported
    simp [reported.nil_eq]
  | cons first others =>
    rw [found] at reported
    have broken : p.breaches ≠ [] := by
      intro none
      rw [none] at reported
      cases reported.eq_nil
    refine ⟨by simp [broken], ?_⟩
    intro o rejected
    cases rejected
    exact ⟨first, others, rfl, reported⟩

end Program

end Tally

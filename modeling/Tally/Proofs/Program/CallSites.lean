import Tally.Proofs.Code.Cuts
import Tally.Proofs.Program.Sizes

namespace Tally

structure CallSite where
  offset : Nat
  params : List String
  callee : Expr
  args : Nat

/-- A callee that names a declaration, with no parameter before it. -/
def CallSite.Direct (site : CallSite) : Prop :=
  ∃ name, site.callee = .ident name ∧ name.text ∉ site.params

/-- A callee whose value is not known before the code runs. -/
inductive CallSite.Indirect (site : CallSite) : Prop where
  | param (name : Ident) (callee : site.callee = .ident name) (hidden : name.text ∈ site.params)
  | int (digits : String) (position : Position) (callee : site.callee = .int digits position)
  | sum (left : Expr) (plus : Position) (right : Expr) (callee : site.callee = .add left plus right)
  | result (inner : Expr) (paren : Position) (args : List Expr)
      (callee : site.callee = .call inner paren args)

theorem CallSite.direct_or_indirect (site : CallSite) : site.Direct ∨ site.Indirect := by
  cases callee : site.callee with
  | int digits position => exact Or.inr (.int digits position callee)
  | ident name =>
    by_cases hidden : name.text ∈ site.params
    · exact Or.inr (.param name callee hidden)
    · exact Or.inl ⟨name, callee, hidden⟩
  | add left plus right => exact Or.inr (.sum left plus right callee)
  | call inner paren args => exact Or.inr (.result inner paren args callee)

mutual

def Expr.callSites (params : List String) (offset : Nat) : Expr → List CallSite
  | .int .. => []
  | .ident _ => []
  | .add left _ right =>
    left.callSites params offset ++ right.callSites params (offset + left.codeSize)
  | .call callee _ args =>
    Expr.callSitesAll params offset args ++
      callee.callSites params (offset + Expr.codeSizeAll args) ++
      [⟨offset + (Expr.codeSizeAll args + callee.codeSize), params, callee, args.length⟩]

def Expr.callSitesAll (params : List String) (offset : Nat) : List Expr → List CallSite
  | [] => []
  | e :: es =>
    Expr.callSitesAll params offset es ++ e.callSites params (offset + Expr.codeSizeAll es)

end

mutual

def Stmt.callSites (params : List String) (offset : Nat) : Stmt → List CallSite
  | .block _ body => Stmt.callSitesAll params offset body
  | .loop _ condition body =>
    condition.callSites params offset ++ body.callSites params (offset + (condition.codeSize + 5))
  | .ret _ value => value.callSites params offset
  | .eval e => e.callSites params offset

def Stmt.callSitesAll (params : List String) (offset : Nat) : List Stmt → List CallSite
  | [] => []
  | s :: ss => s.callSites params offset ++ Stmt.callSitesAll params (offset + s.codeSize) ss

end

def Definition.callSitesAll (offset : Nat) : List Definition → List CallSite
  | [] => []
  | f :: fs =>
    f.block.callSites f.header.paramNames offset ++ callSitesAll (offset + f.block.codeSize) fs

/-- The calls of a program: those at the top, then those of one function after the other. -/
def Program.callSites (p : Program) : List CallSite :=
  Stmt.callSitesAll [] 0 p.statements ++
    Definition.callSitesAll (Stmt.codeSizeAll p.statements + 1) p.definitions

def Listing.calls (l : Listing) : List (Nat × Nat) :=
  l.filterMap fun
    | (offset, .call args) => some (offset, args)
    | _ => none

structure Carries (bindings : Bindings) (signatures : Globals) (addr : Label → Nat) (offset : Nat)
    (ls : List Line) (sites : List CallSite) : Prop where
  calls : (located addr offset ls).calls = sites.map fun site => (site.offset, site.args)
  fed : ∀ site ∈ sites, ∀ name, site.callee = .ident name → name.text ∉ site.params →
    ∃ before depth b after, bindings.lookup name.text = some b ∧
      ls = before ++ .instr (b.instr depth) :: .instr (.call site.args) :: after ∧
      site.offset = offset + (sizeOfLines before + 5)
  arity : ∀ site ∈ sites, ∀ name, site.callee = .ident name → name.text ∉ site.params →
    ∀ s, signatures.lookup name.text = some s → s.arity = site.args

section

variable {bindings : Bindings} {signatures : Globals} {addr : Label → Nat} {offset : Nat}
  {ls ms : List Line} {sites others : List CallSite}

theorem Carries.append (first : Carries bindings signatures addr offset ls sites)
    (rest : Carries bindings signatures addr (offset + sizeOfLines ls) ms others) :
    Carries bindings signatures addr offset (ls ++ ms) (sites ++ others) where
  calls := by
    rw [located_append, List.map_append, ← first.calls, ← rest.calls]
    exact List.filterMap_append
  fed site member name callee free := by
    rcases List.mem_append.mp member with member | member
    · obtain ⟨before, depth, b, after, bound, rfl, here⟩ := first.fed site member name callee free
      refine ⟨before, depth, b, after ++ ms, bound, ?_, here⟩
      rw [List.append_assoc]
      rfl
    · obtain ⟨before, depth, b, after, bound, rfl, here⟩ := rest.fed site member name callee free
      refine ⟨ls ++ before, depth, b, after, bound, (List.append_assoc _ _ _).symm, ?_⟩
      rw [sizeOfLines_append, here]
      omega
  arity site member := by
    rcases List.mem_append.mp member with member | member
    · exact first.arity site member
    · exact rest.arity site member

theorem Carries.none (silent : ∀ n, .instr (.call n) ∉ ls) :
    Carries bindings signatures addr offset ls [] where
  calls := by
    unfold Listing.calls
    rw [List.map_nil, List.filterMap_eq_nil_iff]
    intro entry member
    obtain ⟨before, i, after, rfl, rfl⟩ := mem_located.mp member
    cases i with
    | call n => exact absurd (List.mem_append_right _ List.mem_cons_self) (silent n)
    | _ => rfl
  fed _ member := absurd member List.not_mem_nil
  arity _ member := absurd member List.not_mem_nil

theorem Carries.before (first : Carries bindings signatures addr offset ls sites)
    (ms : List Line) (silent : ∀ n, .instr (.call n) ∉ ms) :
    Carries bindings signatures addr offset (ls ++ ms) sites := by
  have whole := first.append (Carries.none silent)
  rwa [List.append_nil] at whole

theorem Carries.behind_label (rest : Carries bindings signatures addr offset ls sites) (l : Label) :
    Carries bindings signatures addr offset (.label l :: ls) sites := by
  have size : sizeOfLines [.label l] = 0 := rfl
  rw [← Nat.add_zero offset, ← size] at rest
  exact Carries.append (Carries.none (by simp)) rest

theorem Carries.exists_site (carries : Carries bindings signatures addr 0 ls sites) {pc n : Nat}
    {i : Instr Label} (listed : InstrAt ls pc i) (call : i.map addr = .call n) :
    ∃ site ∈ sites, site.offset = pc := by
  have entry : (pc, n) ∈ (located addr 0 ls).calls :=
    List.mem_filterMap.mpr ⟨(pc, i.map addr), listed.mem_located, by rw [call]⟩
  rw [carries.calls] at entry
  obtain ⟨site, member, same⟩ := List.mem_map.mp entry
  cases same
  exact ⟨site, member, rfl⟩

theorem Carries.hasInstr (carries : Carries bindings signatures addr 0 ls sites) {c : Code}
    (holds : c.Holds addr 0 ls) {site : CallSite} (member : site ∈ sites) {pc : Nat}
    (offset : site.offset = pc) : c.HasInstr pc (.call site.args) := by
  subst offset
  have entry : (site.offset, site.args) ∈ (located addr 0 ls).calls := by
    rw [carries.calls]
    exact List.mem_map_of_mem member
  obtain ⟨⟨place, i⟩, inside, found⟩ := List.mem_filterMap.mp entry
  obtain ⟨before, j, after, lines, here⟩ := mem_located.mp inside
  have stands : c.HasInstr place i := by
    cases here
    rw [Nat.zero_add]
    exact InstrAt.hasInstr holds ⟨before, after, lines, rfl⟩
  cases i <;> cases found
  exact stands

end

structure Binds (bindings : Bindings) (around : Surroundings) (scope : Scope) : Prop where
  covers : around.Covers scope
  declared : ∀ name b, name ∉ around.params → scope.resolve name = .ok b →
    bindings.lookup name = some b

theorem Binds.enterBlock {bindings : Bindings} {around : Surroundings} {scope : Scope}
    (binds : Binds bindings around scope) : Binds bindings around scope.enterBlock :=
  ⟨binds.covers, binds.declared⟩

section

variable {bindings : Bindings} {around : Surroundings} {scope : Scope} (addr : Label → Nat)

theorem carries_call {callee : Expr} {paren : Position} {args : Nat} {depth offset : Nat}
    {ls : List Line} {sites : List CallSite} (binds : Binds bindings around scope)
    (kept : callee.violations around = [])
    (fits : around.arityViolations callee paren args = [])
    (inner : Carries bindings around.globals addr offset (ls ++ callee.code scope depth) sites) :
    Carries bindings around.globals addr offset
      (ls ++ callee.code scope depth ++ [.instr (.call args)])
      (sites ++ [⟨offset + (sizeOfLines ls + callee.codeSize), around.params, callee, args⟩]) where
  calls := by
    rw [located_append, List.map_append, ← inner.calls, sizeOfLines_append,
      Expr.size_code binds.covers callee depth kept]
    exact List.filterMap_append
  fed site member name same free := by
    rcases List.mem_append.mp member with member | member
    · obtain ⟨before, depth, b, after, bound, split, here⟩ := inner.fed site member name same free
      refine ⟨before, depth, b, after ++ [.instr (.call args)], bound, ?_, here⟩
      rw [split, List.append_assoc]
      rfl
    · -- The code of a name is one instruction, so it is right before the new call.
      cases List.mem_singleton.mp member
      cases same
      obtain ⟨b, bound⟩ := exists_binding_of_kept binds.covers kept
      refine ⟨ls, depth, b, [], binds.declared name.text b free bound, ?_, rfl⟩
      rw [Expr.code, bound, List.append_assoc]
      rfl
  arity site member name same free s signed := by
    rcases List.mem_append.mp member with member | member
    · exact inner.arity site member name same free s signed
    · cases List.mem_singleton.mp member
      cases same
      have visible : name.text ∉ around.params := free
      have found : around.declared? (.ident name) = some (name.text, s) := by
        simp [Surroundings.declared?, visible, signed]
      unfold Surroundings.arityViolations at fits
      simp only [found] at fits
      by_cases agree : s.arity = args
      · exact agree
      · rw [if_neg agree] at fits
        cases fits

mutual

theorem Expr.carries (binds : Binds bindings around scope) :
    ∀ (e : Expr) (depth offset : Nat), e.violations around = [] →
      Carries bindings around.globals addr offset (e.code scope depth)
        (e.callSites around.params offset)
  | .int .., _, _, _ => Carries.none (by simp [Expr.code])
  | .ident name, depth, _, kept => by
    obtain ⟨b, bound⟩ := exists_binding_of_kept binds.covers kept
    rw [Expr.code, bound]
    apply Carries.none
    intro n member
    cases b <;> cases List.mem_singleton.mp member
  | .add left _ right, depth, offset, kept => by
    rw [Expr.violations, List.append_eq_nil_iff] at kept
    have first := Expr.carries binds left depth offset kept.1
    have second := Expr.carries binds right (depth + 1) (offset + left.codeSize) kept.2
    rw [← Expr.size_code binds.covers left depth kept.1] at second
    rw [Expr.code, Expr.callSites, ← Expr.size_code binds.covers left depth kept.1]
    exact (first.append second).before _ (by simp)
  | .call callee paren args, depth, offset, kept => by
    rw [Expr.violations, List.append_eq_nil_iff, List.append_eq_nil_iff] at kept
    obtain ⟨⟨callee_kept, args_kept⟩, fits⟩ := kept
    have first := Expr.carriesAll binds args depth offset args_kept
    have second := Expr.carries binds callee (depth + args.length)
      (offset + Expr.codeSizeAll args) callee_kept
    rw [← Expr.size_codeArgs binds.covers args depth args_kept] at second
    rw [Expr.code, Expr.callSites, ← Expr.size_codeArgs binds.covers args depth args_kept]
    exact carries_call addr binds callee_kept fits (first.append second)

theorem Expr.carriesAll (binds : Binds bindings around scope) :
    ∀ (es : List Expr) (depth offset : Nat), Expr.violationsOfAll around es = [] →
      Carries bindings around.globals addr offset (Expr.codeArgs scope depth es)
        (Expr.callSitesAll around.params offset es)
  | [], _, _, _ => Carries.none (by simp [Expr.codeArgs])
  | e :: es, depth, offset, kept => by
    rw [Expr.violationsOfAll, List.append_eq_nil_iff] at kept
    have last := Expr.carriesAll binds es depth offset kept.2
    have first := Expr.carries binds e (depth + es.length) (offset + Expr.codeSizeAll es) kept.1
    rw [← Expr.size_codeArgs binds.covers es depth kept.2] at first
    rw [Expr.codeArgs, Expr.callSitesAll, ← Expr.size_codeArgs binds.covers es depth kept.2]
    exact last.append first

end

end

mutual

theorem Stmt.carries {bindings : Bindings} {around : Surroundings} {scope : Scope}
    (addr : Label → Nat) (binds : Binds bindings around scope) :
    ∀ (s : Stmt) (labels offset : Nat), s.violations around = [] →
      Carries bindings around.globals addr offset (s.code scope labels)
        (s.callSites around.params offset)
  | .block _ body, labels, offset, kept =>
    Stmt.carriesAll addr binds.enterBlock body labels offset kept
  | .loop _ condition body, labels, offset, kept => by
    rw [Stmt.violations, List.append_eq_nil_iff] at kept
    have test := Expr.carries addr binds condition 0 offset kept.1
    have inner := Stmt.carries addr binds body (labels + 2) (offset + (condition.codeSize + 5))
      kept.2
    have size : sizeOfLines ([.label labels] ++ condition.code scope 0 ++
        [.instr (.jumpFalse (labels + 1))]) = condition.codeSize + 5 := by
      have jump : (Instr.jumpFalse (labels + 1) : Instr Label).size = 5 := rfl
      rw [sizeOfLines_append, sizeOfLines_append, sizeOfLines_label,
        Expr.size_code binds.covers condition 0 kept.1, sizeOfLines_singleton, jump, sizeOfLines,
        Nat.zero_add]
    rw [← size] at inner
    rw [Stmt.code, Stmt.callSites, ← size]
    exact (((test.behind_label labels).before [.instr (.jumpFalse (labels + 1))]
      (by simp)).append inner).before _ (by simp)
  | .ret _ value, labels, offset, kept => by
    rw [Stmt.violations, List.append_eq_nil_iff] at kept
    exact (Expr.carries addr binds value 0 offset kept.2).before _ (by simp)
  | .eval e, labels, offset, kept =>
    (Expr.carries addr binds e 0 offset kept).before _ (by simp)

theorem Stmt.carriesAll {bindings : Bindings} {around : Surroundings} {scope : Scope}
    (addr : Label → Nat) (binds : Binds bindings around scope) :
    ∀ (ss : List Stmt) (labels offset : Nat), Stmt.violationsOfAll around ss = [] →
      Carries bindings around.globals addr offset (Stmt.codeAll scope labels ss)
        (Stmt.callSitesAll around.params offset ss)
  | [], _, _, _ => Carries.none (by simp [Stmt.codeAll])
  | s :: ss, labels, offset, kept => by
    rw [Stmt.violationsOfAll, List.append_eq_nil_iff] at kept
    have first := Stmt.carries addr binds s labels offset kept.1
    have rest := Stmt.carriesAll addr binds ss (labels + s.labelCount) (offset + s.codeSize) kept.2
    rw [← Stmt.size_code binds.covers s labels kept.1] at rest
    rw [Stmt.codeAll, Stmt.callSitesAll, ← Stmt.size_code binds.covers s labels kept.1]
    exact first.append rest

end

section

variable {p : Program} {d : Declarations}

theorem Declarations.Of.binds_top (of : d.Of p) :
    Binds d.scope.globals ⟨Globals.declareAll [] p.items, [], false⟩ d.scope where
  covers := of.covers_top false
  declared name b _ bound := by
    rw [of.resolve_top] at bound
    cases found : d.scope.globals.lookup name with
    | none =>
      rw [found] at bound
      cases bound
    | some b' =>
      rw [found] at bound
      cases bound
      rfl

theorem Declarations.Of.binds_body (of : d.Of p) (params : List String) :
    Binds d.scope.globals ⟨Globals.declareAll [] p.items, params, true⟩
      (d.scope.enterFunction params) where
  covers := of.covers_body params true
  declared name b free bound := by
    have visible : name ∉ params := free
    rw [of.resolve_body] at bound
    cases index : lastIndex? name params with
    | some i => exact absurd (mem_of_lastIndex? index) visible
    | none =>
      rw [index] at bound
      exact of.binds_top.declared name b List.not_mem_nil bound

theorem Definition.carries (of : d.Of p) (addr : Label → Nat) (fs : List (Definition × Label))
    (labels offset : Nat)
    (keeps : ∀ f ∈ fs.map Prod.fst, f.Keeps (Globals.declareAll [] p.items)) :
    Carries d.scope.globals (Globals.declareAll [] p.items) addr offset
      (linesOf (segments d.scope labels fs)) (callSitesAll offset (fs.map Prod.fst)) := by
  induction fs generalizing labels offset with
  | nil => exact Carries.none (by simp [segments, linesOf])
  | cons pair fs ih =>
    obtain ⟨f, entry⟩ := pair
    have keeps_body := (keeps f (by simp)).body
    have binds := of.binds_body f.header.paramNames
    have body := Stmt.carries addr binds f.block labels offset keeps_body
    have rest := ih (labels + f.block.labelCount) (offset + f.block.codeSize)
      fun g member => keeps g (by simp [member])
    have size : sizeOfLines (f.segment d.scope labels entry).lines = f.block.codeSize := by
      rw [segment, sizeOfLines_label, Stmt.size_code binds.covers f.block labels keeps_body]
    rw [← size] at rest
    rw [segments, linesOf, List.flatMap_cons, List.map_cons, callSitesAll, ← size]
    exact (body.behind_label entry).append rest

/-- The calls of compiled code are those of the program. -/
theorem Program.carries (of : d.Of p) (kept : p.violations = []) (addr : Label → Nat) :
    Carries d.scope.globals (Globals.declareAll [] p.items) addr 0 (p.assembled d).lines.toList
      p.callSites := by
  have statements := p.kept_statements kept
  have top := (Stmt.carriesAll addr of.binds_top p.statements d.pending.size 0 statements).before
    [.instr .stop] (by simp)
  have rest := Definition.carries of addr d.pending.toList
    (d.pending.size + Stmt.labelCountAll p.statements) (Stmt.codeSizeAll p.statements + 1)
    (p.keeps_pending of kept)
  have size : sizeOfLines (p.topSegment d.scope d.pending.size).lines =
      Stmt.codeSizeAll p.statements + 1 := by
    rw [topSegment, sizeOfLines_append,
      Stmt.size_codeAll of.binds_top.covers p.statements d.pending.size statements]
    rfl
  rw [of.pending, List.zipIdx_map_fst, ← Nat.zero_add (_ + 1), ← size] at rest
  change Carries _ _ _ _ (linesOf (p.segments d)) _
  rw [segments, linesOf, List.flatMap_cons, callSites, ← Nat.zero_add (_ + 1), ← size, of.pending]
  exact top.append rest

end

end Tally

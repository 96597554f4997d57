import Tally.Proofs.Program.Compiled

namespace Tally

mutual

def Expr.codeSize : Expr → Nat
  | .int .. => 9
  | .ident _ => 5
  | .add left _ right => left.codeSize + right.codeSize + 1
  | .call callee _ args => Expr.codeSizeAll args + callee.codeSize + 5

def Expr.codeSizeAll : List Expr → Nat
  | [] => 0
  | e :: es => Expr.codeSizeAll es + e.codeSize

end

mutual

def Stmt.codeSize : Stmt → Nat
  | .block _ body => Stmt.codeSizeAll body
  | .loop _ condition body => condition.codeSize + body.codeSize + 10
  | .ret _ value => value.codeSize + 9
  | .eval e => e.codeSize + 1

def Stmt.codeSizeAll : List Stmt → Nat
  | [] => 0
  | s :: ss => s.codeSize + Stmt.codeSizeAll ss

end

def Definition.codeSizeAll : List Definition → Nat
  | [] => 0
  | f :: fs => f.block.codeSize + codeSizeAll fs

/-- The bytes of the code of a program: the statements at the top with a stop, and the functions. -/
def Program.codeSize (p : Program) : Nat :=
  Stmt.codeSizeAll p.statements + 1 + Definition.codeSizeAll p.definitions

def Definition.paramCountAll : List Definition → Nat
  | [] => 0
  | f :: fs => f.header.params.length + paramCountAll fs

/-- The bytes of the code, the prototypes and the parameters of functions, counted together. -/
def Program.extent (p : Program) : Nat :=
  p.codeSize + p.prototypes.length + Definition.paramCountAll p.definitions

theorem sizeOfLines_singleton (i : Instr Label) : sizeOfLines [.instr i] = i.size := Nat.add_zero _

theorem Binding.size_instr (b : Binding) (depth : Nat) : (b.instr depth).size = 5 := by
  cases b <;> rfl

section

variable {around : Surroundings} {scope : Scope}

mutual

theorem Expr.size_code (covers : around.Covers scope) :
    ∀ (e : Expr) (depth : Nat), e.violations around = [] →
      sizeOfLines (e.code scope depth) = e.codeSize
  | .int .., _, _ => rfl
  | .ident name, depth, kept => by
    obtain ⟨b, bound⟩ := exists_binding_of_kept covers kept
    rw [Expr.code, bound, sizeOfLines_singleton, b.size_instr, Expr.codeSize]
  | .add left _ right, depth, kept => by
    rw [Expr.violations, List.append_eq_nil_iff] at kept
    rw [Expr.code, sizeOfLines_append, sizeOfLines_append, Expr.size_code covers left _ kept.1,
      Expr.size_code covers right _ kept.2]
    rfl
  | .call callee _ args, depth, kept => by
    rw [Expr.violations, List.append_eq_nil_iff, List.append_eq_nil_iff] at kept
    rw [Expr.code, sizeOfLines_append, sizeOfLines_append,
      Expr.size_codeArgs covers args _ kept.1.2, Expr.size_code covers callee _ kept.1.1]
    rfl

theorem Expr.size_codeArgs (covers : around.Covers scope) :
    ∀ (es : List Expr) (depth : Nat), Expr.violationsOfAll around es = [] →
      sizeOfLines (Expr.codeArgs scope depth es) = Expr.codeSizeAll es
  | [], _, _ => rfl
  | e :: es, depth, kept => by
    rw [Expr.violationsOfAll, List.append_eq_nil_iff] at kept
    rw [Expr.codeArgs, sizeOfLines_append, Expr.size_codeArgs covers es _ kept.2,
      Expr.size_code covers e _ kept.1, Expr.codeSizeAll]

end

end

mutual

theorem Stmt.size_code {around : Surroundings} {scope : Scope} (covers : around.Covers scope) :
    ∀ (s : Stmt) (labels : Nat), s.violations around = [] →
      sizeOfLines (s.code scope labels) = s.codeSize
  | .block _ body, labels, kept => Stmt.size_codeAll covers.enterBlock body labels kept
  | .loop _ condition body, labels, kept => by
    rw [Stmt.violations, List.append_eq_nil_iff] at kept
    have entry : sizeOfLines [.label labels] = 0 := rfl
    have test : (Instr.jumpFalse (labels + 1) : Instr Label).size = 5 := rfl
    have exit : sizeOfLines [.instr (.jump labels), .label (labels + 1)] = 5 := rfl
    rw [Stmt.code, sizeOfLines_append, sizeOfLines_append, sizeOfLines_append, sizeOfLines_append,
      Expr.size_code covers condition _ kept.1, Stmt.size_code covers body _ kept.2,
      sizeOfLines_singleton, entry, test, exit, Stmt.codeSize]
    omega
  | .ret _ value, labels, kept => by
    rw [Stmt.violations, List.append_eq_nil_iff] at kept
    rw [Stmt.code, sizeOfLines_append, Expr.size_code covers value _ kept.2]
    rfl
  | .eval e, labels, kept => by
    rw [Stmt.code, sizeOfLines_append, Expr.size_code covers e _ kept]
    rfl

theorem Stmt.size_codeAll {around : Surroundings} {scope : Scope} (covers : around.Covers scope) :
    ∀ (ss : List Stmt) (labels : Nat), Stmt.violationsOfAll around ss = [] →
      sizeOfLines (Stmt.codeAll scope labels ss) = Stmt.codeSizeAll ss
  | [], _, _ => rfl
  | s :: ss, labels, kept => by
    rw [Stmt.violationsOfAll, List.append_eq_nil_iff] at kept
    rw [Stmt.codeAll, sizeOfLines_append, Stmt.size_code covers s _ kept.1,
      Stmt.size_codeAll covers ss _ kept.2, Stmt.codeSizeAll]

end

mutual

theorem Expr.five_le_codeSize : ∀ e : Expr, 5 ≤ e.codeSize
  | .int .. => Nat.le_add_right 5 4
  | .ident _ => Nat.le_refl 5
  | .add left _ right => by
    have first := Expr.five_le_codeSize left
    rw [Expr.codeSize]
    omega
  | .call callee _ args => Nat.le_add_left _ _

theorem Expr.length_le_codeSizeAll : ∀ es : List Expr, 5 * es.length ≤ Expr.codeSizeAll es
  | [] => Nat.le_refl 0
  | e :: es => by
    have first := Expr.five_le_codeSize e
    have rest := Expr.length_le_codeSizeAll es
    rw [List.length_cons, Expr.codeSizeAll]
    omega

end

structure Scope.Bounded (scope : Scope) (natives params : Nat) : Prop where
  native : ∀ name index own, scope.resolve name = .ok (.native index own) → index < natives
  argument : ∀ name index, scope.resolve name = .ok (.argument index) → index < params
  paramCount : scope.paramCount ≤ params

theorem Scope.Bounded.enterBlock {scope : Scope} {natives params : Nat}
    (bounded : scope.Bounded natives params) : scope.enterBlock.Bounded natives params :=
  ⟨bounded.native, bounded.argument, bounded.paramCount⟩

def Instr.Counts (natives params size : Nat) (i : Instr Label) : Prop :=
  ∀ n, .count n ∈ i.operands → n < natives ∨ 5 * n ≤ 5 * params + size

def CountsOf (natives params size : Nat) (ls : List Line) : Prop :=
  ∀ i, .instr i ∈ ls → i.Counts natives params size

section

variable {natives params size : Nat}

theorem CountsOf.mono {more others : Nat} {ls : List Line} (counts : CountsOf natives params size ls)
    (params_le : params ≤ others) (size_le : size ≤ more) : CountsOf natives others more ls := by
  intro i member n count
  rcases counts i member n count with native | small
  · exact Or.inl native
  · right
    omega

theorem CountsOf.append {ls ms : List Line} (first : CountsOf natives params size ls)
    (rest : CountsOf natives params size ms) : CountsOf natives params size (ls ++ ms) := by
  intro i member
  rcases List.mem_append.mp member with member | member
  · exact first i member
  · exact rest i member

theorem CountsOf.label (l : Label) : CountsOf natives params size [.label l] := by
  intro i member
  cases List.mem_singleton.mp member

theorem CountsOf.singleton {i : Instr Label} (here : i.Counts natives params size) :
    CountsOf natives params size [.instr i] := by
  intro j member
  cases List.mem_singleton.mp member
  exact here

theorem Instr.counts_of_address {i : Instr Label} {l : Label} (only : i.operands = [.address l]) :
    i.Counts natives params size := by
  intro n count
  rw [only] at count
  cases List.mem_singleton.mp count

variable {scope : Scope}

mutual

theorem Expr.counts_code (bounded : scope.Bounded natives params) :
    ∀ (e : Expr) (depth : Nat), CountsOf natives params (5 * depth + e.codeSize) (e.code scope depth)
  | .int .., _ => by
    apply CountsOf.singleton
    intro n count
    cases List.mem_singleton.mp count
  | .ident name, depth => by
    rw [Expr.code]
    split
    · rename_i b bound
      apply CountsOf.singleton
      intro n count
      cases b with
      | function entry => cases List.mem_singleton.mp count
      | native index own =>
        cases List.mem_singleton.mp count
        exact Or.inl (bounded.native _ _ _ bound)
      | argument index =>
        cases List.mem_singleton.mp count
        have small := bounded.argument _ _ bound
        rw [Expr.codeSize]
        omega
    · nofun
  | .add left _ right, depth => by
    have five := left.five_le_codeSize
    have first := Expr.counts_code bounded left depth
    have second := Expr.counts_code bounded right (depth + 1)
    rw [Expr.code, Expr.codeSize]
    refine ((first.mono (Nat.le_refl _) ?_).append (second.mono (Nat.le_refl _) ?_)).append
      (CountsOf.singleton nofun)
    · omega
    · omega
  | .call callee _ args, depth => by
    have many := Expr.length_le_codeSizeAll args
    have inner := Expr.counts_codeArgs bounded args depth
    have called := Expr.counts_code bounded callee (depth + args.length)
    rw [Expr.code, Expr.codeSize]
    refine ((inner.mono (Nat.le_refl _) ?_).append (called.mono (Nat.le_refl _) ?_)).append
      (CountsOf.singleton fun n count => ?_)
    · omega
    · omega
    · cases List.mem_singleton.mp count
      omega

theorem Expr.counts_codeArgs (bounded : scope.Bounded natives params) :
    ∀ (es : List Expr) (depth : Nat),
      CountsOf natives params (5 * depth + Expr.codeSizeAll es) (Expr.codeArgs scope depth es)
  | [], _ => nofun
  | e :: es, depth => by
    have many := Expr.length_le_codeSizeAll es
    have last := Expr.counts_codeArgs bounded es depth
    have first := Expr.counts_code bounded e (depth + es.length)
    rw [Expr.codeArgs, Expr.codeSizeAll]
    refine (last.mono (Nat.le_refl _) ?_).append (first.mono (Nat.le_refl _) ?_)
    · omega
    · omega

end

end

mutual

theorem Stmt.counts_code {natives params : Nat} {scope : Scope}
    (bounded : scope.Bounded natives params) :
    ∀ (s : Stmt) (labels : Nat), CountsOf natives params s.codeSize (s.code scope labels)
  | .block _ body, labels => Stmt.counts_codeAll bounded.enterBlock body labels
  | .loop _ condition body, labels => by
    have test := Expr.counts_code bounded condition 0
    have inner := Stmt.counts_code bounded body (labels + 2)
    rw [Stmt.code, Stmt.codeSize]
    have exit : CountsOf natives params (condition.codeSize + body.codeSize + 10)
        [.instr (.jumpFalse (labels + 1))] := CountsOf.singleton (Instr.counts_of_address rfl)
    have back : CountsOf natives params (condition.codeSize + body.codeSize + 10)
        [.instr (.jump labels)] := CountsOf.singleton (Instr.counts_of_address rfl)
    refine ((((CountsOf.label _).append (test.mono (Nat.le_refl _) ?_)).append exit).append
      (inner.mono (Nat.le_refl _) ?_)).append (back.append (CountsOf.label _))
    · omega
    · omega
  | .ret _ value, labels => by
    have inner := Expr.counts_code bounded value 0
    rw [Stmt.code, Stmt.codeSize]
    refine (inner.mono (Nat.le_refl _) ?_).append (CountsOf.singleton fun n count => ?_)
    · omega
    · have arity := bounded.paramCount
      simp only [Instr.operands, List.mem_cons, Operand.count.injEq, List.not_mem_nil,
        or_false] at count
      omega
  | .eval e, labels => by
    have inner := Expr.counts_code bounded e 0
    rw [Stmt.code, Stmt.codeSize]
    refine (inner.mono (Nat.le_refl _) ?_).append (CountsOf.singleton nofun)
    omega

theorem Stmt.counts_codeAll {natives params : Nat} {scope : Scope}
    (bounded : scope.Bounded natives params) :
    ∀ (ss : List Stmt) (labels : Nat),
      CountsOf natives params (Stmt.codeSizeAll ss) (Stmt.codeAll scope labels ss)
  | [], _ => nofun
  | s :: ss, labels => by
    have first := Stmt.counts_code bounded s labels
    have rest := Stmt.counts_codeAll bounded ss (labels + s.labelCount)
    rw [Stmt.codeAll, Stmt.codeSizeAll]
    exact (first.mono (Nat.le_refl _) (Nat.le_add_right _ _)).append
      (rest.mono (Nat.le_refl _) (Nat.le_add_left _ _))

end

section

variable {d : Declarations} {p : Program}

theorem Declarations.Of.bounded_top (of : d.Of p) : d.scope.Bounded d.natives.size 0 where
  native name index own bound := of.within_top name _ bound
  argument name index bound := absurd bound (of.not_argument name index)
  paramCount := by
    unfold Scope.paramCount
    rw [of.top]
    exact Nat.le_refl 0

theorem Declarations.Of.bounded_body (of : d.Of p) (params : List String) :
    (d.scope.enterFunction params).Bounded d.natives.size params.length where
  native name index own bound := of.within_body params name _ bound
  argument name index bound := by
    obtain ⟨n, same, small⟩ := (of.standing_body params).argument name index bound
    cases same
    exact small
  paramCount := Nat.le_refl _

theorem Definition.size_segments (of : d.Of p) (fs : List (Definition × Label)) (labels : Nat)
    (keeps : ∀ f ∈ fs.map Prod.fst, f.Keeps (Globals.declareAll [] p.items)) :
    sizeOfLines (linesOf (Definition.segments d.scope labels fs)) =
      Definition.codeSizeAll (fs.map Prod.fst) := by
  induction fs generalizing labels with
  | nil => rfl
  | cons pair fs ih =>
    obtain ⟨f, entry⟩ := pair
    have covers := of.covers_body f.header.paramNames true
    have body := Stmt.size_code covers f.block labels (keeps f (by simp)).body
    have rest := ih (labels + f.block.labelCount) fun g member => keeps g (by simp [member])
    rw [linesOf] at rest
    rw [segments, linesOf, List.flatMap_cons, sizeOfLines_append, rest, segment,
      sizeOfLines, Line.size, body, Nat.zero_add]
    rfl

theorem Program.size_assembled (of : d.Of p) (kept : p.violations = []) :
    sizeOfLines (p.assembled d).lines.toList = p.codeSize := by
  have top := Stmt.size_codeAll (of.covers_top false) p.statements d.pending.size
    (p.kept_statements kept)
  have rest := Definition.size_segments of d.pending.toList
    (d.pending.size + Stmt.labelCountAll p.statements) (p.keeps_pending of kept)
  have stop : sizeOfLines [.instr .stop] = 1 := rfl
  rw [of.pending, List.zipIdx_map_fst] at rest
  change sizeOfLines (linesOf (p.segments d)) = _
  rw [segments, linesOf, List.flatMap_cons, sizeOfLines_append, topSegment, sizeOfLines_append, top,
    stop, codeSize, of.pending, ← rest]
  rfl

theorem Definition.counts_segments (of : d.Of p) {params : Nat} (fs : List (Definition × Label))
    (labels : Nat) (few : ∀ f ∈ fs.map Prod.fst, f.header.params.length ≤ params) :
    CountsOf d.natives.size params (Definition.codeSizeAll (fs.map Prod.fst))
      (linesOf (Definition.segments d.scope labels fs)) := by
  induction fs generalizing labels with
  | nil => nofun
  | cons pair fs ih =>
    obtain ⟨f, entry⟩ := pair
    have bounded := of.bounded_body f.header.paramNames
    have body := Stmt.counts_code bounded f.block labels
    have rest := ih (labels + f.block.labelCount) fun g member => few g (by simp [member])
    have arity : f.header.paramNames.length ≤ params := by
      rw [Header.paramNames, List.length_map]
      exact few f (by simp)
    have whole : CountsOf d.natives.size params f.block.codeSize
        (f.segment d.scope labels entry).lines :=
      (CountsOf.label entry).append (body.mono arity (Nat.le_refl _))
    rw [segments, linesOf, List.flatMap_cons, List.map_cons, codeSizeAll]
    exact (whole.mono (Nat.le_refl _) (Nat.le_add_right _ _)).append
      (rest.mono (Nat.le_refl _) (Nat.le_add_left _ _))

theorem Program.counts_assembled (of : d.Of p) {params : Nat}
    (few : ∀ f ∈ p.definitions, f.header.params.length ≤ params) :
    CountsOf p.prototypes.length params p.codeSize (p.assembled d).lines.toList := by
  have definitions : d.pending.toList.map Prod.fst = p.definitions := by
    rw [of.pending, List.zipIdx_map_fst]
  have top := Stmt.counts_codeAll of.bounded_top p.statements d.pending.size
  have rest := Definition.counts_segments of d.pending.toList
    (d.pending.size + Stmt.labelCountAll p.statements) (definitions ▸ few)
  have stop : CountsOf d.natives.size params p.codeSize [.instr .stop] := CountsOf.singleton nofun
  rw [definitions] at rest
  rw [← of.size_natives]
  change CountsOf _ _ _ (linesOf (p.segments d))
  rw [segments, linesOf, List.flatMap_cons]
  refine ((top.mono (Nat.zero_le _) ?_).append stop).append (rest.mono (Nat.le_refl _) ?_)
  · unfold codeSize
    omega
  · unfold codeSize
    omega

theorem Definition.params_le_paramCountAll {f : Definition} {fs : List Definition}
    (member : f ∈ fs) : f.header.params.length ≤ paramCountAll fs := by
  induction fs with
  | nil => cases member
  | cons g fs ih =>
    rw [paramCountAll]
    rcases List.mem_cons.mp member with rfl | member
    · exact Nat.le_add_right _ _
    · exact Nat.le_trans (ih member) (Nat.le_add_left _ _)

theorem Program.mentions_le_extent (of : d.Of p) (kept : p.violations = []) {v : Nat}
    (mentions : (p.assembled d).Mentions v) : v ≤ p.extent := by
  have few : ∀ f ∈ p.definitions, f.header.params.length ≤
      Definition.paramCountAll p.definitions := fun f => Definition.params_le_paramCountAll
  unfold extent
  rcases mentions with offset | ⟨i, member, count⟩
  · rw [p.size_assembled of kept] at offset
    omega
  · rcases p.counts_assembled of few i member v count with native | small
    · omega
    · omega

end

end Tally

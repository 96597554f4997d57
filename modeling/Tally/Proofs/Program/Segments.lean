import Tally.Proofs.Assembly.Linked
import Tally.Proofs.Code.Depth
import Tally.Proofs.Program.Kept
import Tally.Proofs.Program.References
import Mathlib.Data.List.Range

namespace Tally

/-- The lines of one body of code; at the top there is no number of parameters. -/
structure Segment where
  arity? : Option Nat
  lines : List Line

def linesOf (segments : List Segment) : List Line := segments.flatMap Segment.lines

def Instr.leaving {α : Type} : Option Nat → Instr α
  | none => .stop
  | some n => .ret 0 n

/-- A segment that names what there is, keeps count of the stack, and is never left at its end. -/
structure Segment.Sound (functions natives : Nat) (s : Segment) : Prop where
  balanced : depthAfter s.arity? 0 s.lines = some 0
  closed : ∃ before, s.lines = before ++ [.instr (.leaving s.arity?)] ∧
    ∀ i, .instr i ∈ before → i.Refers functions natives (labelsOf s.lines)

def Definition.segment (f : Definition) (scope : Scope) (labels : Nat) (entry : Label) : Segment :=
  ⟨some f.header.params.length,
    .label entry :: f.block.code (scope.enterFunction f.header.paramNames) labels⟩

def Definition.segments (scope : Scope) (labels : Nat) : List (Definition × Label) → List Segment
  | [] => []
  | (f, entry) :: fs =>
    f.segment scope labels entry :: segments scope (labels + f.block.labelCount) fs

def Definition.labelCounts : List Definition → Nat
  | [] => 0
  | f :: fs => f.block.labelCount + labelCounts fs

namespace Program

def topSegment (p : Program) (scope : Scope) (labels : Nat) : Segment :=
  ⟨none, Stmt.codeAll scope labels p.statements ++ [.instr .stop]⟩

def segments (p : Program) (d : Declarations) : List Segment :=
  p.topSegment d.scope d.pending.size ::
    Definition.segments d.scope (d.pending.size + Stmt.labelCountAll p.statements) d.pending.toList

def assembled (p : Program) (d : Declarations) : Assembly where
  lines := (linesOf (p.segments d)).toArray
  labels := d.pending.size + Stmt.labelCountAll p.statements + Definition.labelCounts p.definitions
  functions := d.pending.toList.map fun (f, entry) =>
    ⟨f.header.name.text, entry, f.header.params.length⟩
  natives := d.natives

end Program

section Lowered

variable {d : Declarations} {p : Program}

theorem Program.kept_item (kept : p.violations = []) {item : Item} (member : item ∈ p.items) :
    item.violations (Globals.declareAll [] p.items) = [] := by
  have all := (List.append_eq_nil_iff.mp kept).2
  exact List.flatMap_eq_nil_iff.mp all item member

theorem Program.kept_definition (kept : p.violations = []) {f : Definition}
    (member : f ∈ p.definitions) : f.violations (Globals.declareAll [] p.items) = [] := by
  obtain ⟨item, inside, same⟩ := List.mem_filterMap.mp member
  cases item with
  | definition f' =>
    cases same
    exact p.kept_item kept inside
  | prototype q => cases same
  | stmt s => cases same

theorem Program.kept_statements (kept : p.violations = []) :
    Stmt.violationsOfAll ⟨Globals.declareAll [] p.items, [], false⟩ p.statements = [] := by
  have all : ∀ s ∈ p.statements,
      s.violations ⟨Globals.declareAll [] p.items, [], false⟩ = [] := by
    intro s member
    obtain ⟨item, inside, same⟩ := List.mem_filterMap.mp member
    cases item with
    | definition f => cases same
    | prototype q => cases same
    | stmt s' =>
      cases same
      exact p.kept_item kept inside
  generalize p.statements = ss at all
  induction ss with
  | nil => rfl
  | cons s ss ih =>
    rw [Stmt.violationsOfAll, all s List.mem_cons_self, List.nil_append]
    exact ih fun s' member => all s' (List.mem_cons_of_mem _ member)

structure Definition.Keeps (g : Globals) (f : Definition) : Prop where
  nodup : f.header.paramNames.Nodup
  ends : f.block.endsWithReturn = true
  body : f.block.violations ⟨g, f.header.paramNames, true⟩ = []

theorem Definition.keeps_of_violations {g : Globals} {f : Definition} (kept : f.violations g = []) :
    f.Keeps g := by
  simp only [violations, List.append_eq_nil_iff] at kept
  refine ⟨nodup_of_repeatedParams kept.1.1, ?_, kept.2⟩
  by_cases ends : f.block.endsWithReturn = true
  · exact ends
  · have failed := kept.1.2
    rw [if_neg ends] at failed
    cases failed

theorem Definition.lower_eq (of : d.Of p) {f : Definition}
    (keeps : f.Keeps (Globals.declareAll [] p.items)) (entry : Label) (draft : Draft) :
    f.lower d.scope entry draft = .ok ((), draft.after (f.segment d.scope draft.labels entry).lines 0
      (draft.labels + f.block.labelCount)) := by
  have covers := of.covers_body f.header.paramNames true
  have depth (d' : Draft) : Lowering.depth d' = .ok (d'.depth, d') := rfl
  have reset (d' : Draft) : Lowering.setDepth 0 d' = .ok ((), ⟨d'.lines, 0, d'.labels⟩) := rfl
  unfold lower
  rw [run_bind_of_ok (Lowering.emit_eq draft _), run_bind_of_ok (reset _),
    run_bind_of_ok (Stmt.lower_eq covers f.block _ keeps.body rfl), run_bind_of_ok (depth _)]
  simp [Draft.after, segment]
  rfl

theorem Definition.lowerAll_eq (of : d.Of p) (fs : List (Definition × Label)) (draft : Draft)
    (keeps : ∀ f ∈ fs.map Prod.fst, f.Keeps (Globals.declareAll [] p.items))
    (bottom : draft.depth = 0) :
    (fs.forM fun (f, entry) => f.lower d.scope entry) draft =
      .ok ((), draft.after (linesOf (Definition.segments d.scope draft.labels fs)) 0
        (draft.labels + Definition.labelCounts (fs.map Prod.fst))) := by
  induction fs generalizing draft with
  | nil =>
    obtain ⟨lines, depth, labels⟩ := draft
    cases bottom
    simp [Definition.labelCounts, Definition.segments, linesOf, Draft.after]
    rfl
  | cons pair fs ih =>
    obtain ⟨f, entry⟩ := pair
    have first := Definition.lower_eq of (keeps f (by simp)) entry draft
    have rest := ih (draft.after (f.segment d.scope draft.labels entry).lines 0
      (draft.labels + f.block.labelCount)) (fun g member => keeps g (by simp [member])) rfl
    rw [Draft.after_after] at rest
    refine (run_bind_of_ok first).trans (rest.trans ?_)
    simp [Definition.labelCounts, Definition.segments, linesOf, Draft.after, Nat.add_assoc]

theorem Program.lowerTop_eq (of : d.Of p) (kept : p.violations = []) (labels : Nat) :
    p.lowerTop d.scope ⟨#[], 0, labels⟩ =
      .ok ((), ⟨(p.topSegment d.scope labels).lines.toArray, 0,
        labels + Stmt.labelCountAll p.statements⟩) := by
  have covers := of.covers_top false
  have depth (d' : Draft) : Lowering.depth d' = .ok (d'.depth, d') := rfl
  unfold lowerTop
  rw [run_bind_of_ok (Stmt.lowerAll_eq covers p.statements _ (p.kept_statements kept) rfl),
    run_bind_of_ok (depth _)]
  change Lowering.emitInstr .stop _ = _
  rw [Lowering.emitInstr_eq]
  simp [Draft.after, topSegment]

theorem Program.keeps_pending (of : d.Of p) (kept : p.violations = []) :
    ∀ f ∈ d.pending.toList.map Prod.fst, f.Keeps (Globals.declareAll [] p.items) := by
  intro f member
  rw [of.pending, List.zipIdx_map_fst] at member
  exact Definition.keeps_of_violations (p.kept_definition kept member)

theorem Program.assembly_eq {known : PrimitiveNames} (kept : p.violations = [])
    (declared : Declarations.ofProgram known p = .ok d) :
    p.assembly known = .ok (p.assembled d) := by
  have of := Declarations.of_ofProgram declared
  have definitions : d.pending.toList.map Prod.fst = p.definitions := by
    rw [of.pending, List.zipIdx_map_fst]
  have rest := Definition.lowerAll_eq of d.pending.toList
    ⟨(p.topSegment d.scope d.pending.size).lines.toArray, 0,
      d.pending.size + Stmt.labelCountAll p.statements⟩ (p.keeps_pending of kept) rfl
  have all := (run_bind_of_ok (f := fun _ => d.pending.toList.forM fun (f, entry) =>
    f.lower d.scope entry) (p.lowerTop_eq of kept d.pending.size)).trans rest
  unfold assembly
  rw [declared]
  change (do
    let (_, draft) ← (p.lowerTop d.scope >>= fun _ => d.pending.toList.forM fun (f, entry) =>
      f.lower d.scope entry) ⟨#[], 0, d.pending.size⟩
    _ : Except LoweringFault Assembly) = _
  rw [all, definitions]
  simp [assembled, Draft.after, segments, linesOf]

end Lowered

end Tally

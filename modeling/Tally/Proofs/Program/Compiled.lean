import Tally.Proofs.Program.Segments

namespace Tally

namespace Declarations

variable {d : Declarations} {p : Program}

theorem Of.size_pending (of : d.Of p) : d.pending.size = p.definitions.length := by
  rw [← Array.length_toList, of.pending, List.length_zipIdx]

theorem Of.size_natives (of : d.Of p) : d.natives.size = p.prototypes.length := by
  rw [← Array.length_toList, of.natives, List.length_map]

theorem Of.within_top (of : d.Of p) (name : String) (b : Binding)
    (bound : d.scope.resolve name = .ok b) : b.Within d.pending.size d.natives.size := by
  rw [of.resolve_top] at bound
  cases found : d.scope.globals.lookup name with
  | none =>
    rw [found] at bound
    cases bound
  | some b' =>
    rw [found] at bound
    cases bound
    obtain ⟨item, _, means⟩ := of.means found
    cases means with
    | function here =>
      have inside := (List.getElem?_eq_some_iff.mp here).1
      rw [← of.size_pending] at inside
      exact inside
    | native here =>
      have inside := (List.getElem?_eq_some_iff.mp here).1
      rw [← of.size_natives] at inside
      exact inside

theorem Of.within_body (of : d.Of p) (params : List String) (name : String) (b : Binding)
    (bound : (d.scope.enterFunction params).resolve name = .ok b) :
    b.Within d.pending.size d.natives.size := by
  rw [of.resolve_body] at bound
  cases index : lastIndex? name params with
  | some i =>
    rw [index] at bound
    cases bound
    trivial
  | none =>
    rw [index] at bound
    exact of.within_top name b bound

theorem Of.not_argument (of : d.Of p) (name : String) (i : Nat) :
    d.scope.resolve name ≠ .ok (.argument i) := by
  intro bound
  rw [of.resolve_top] at bound
  cases found : d.scope.globals.lookup name with
  | none =>
    rw [found] at bound
    cases bound
  | some b =>
    rw [found] at bound
    cases bound
    obtain ⟨item, _, means⟩ := of.means found
    cases means

theorem Of.standing_top (of : d.Of p) :
    Standing ⟨Globals.declareAll [] p.items, [], false⟩ d.scope none where
  covers := of.covers_top false
  argument name i bound := absurd bound (of.not_argument name i)
  inFunction inside := nomatch inside

theorem Of.standing_body (of : d.Of p) (params : List String) :
    Standing ⟨Globals.declareAll [] p.items, params, true⟩ (d.scope.enterFunction params)
      (some params.length) where
  covers := of.covers_body params true
  argument name i bound := by
    refine ⟨params.length, rfl, ?_⟩
    rw [of.resolve_body] at bound
    cases index : lastIndex? name params with
    | some j =>
      rw [index] at bound
      cases bound
      exact lastIndex?_lt index
    | none =>
      rw [index] at bound
      exact absurd bound (of.not_argument name i)
  inFunction _ := rfl

end Declarations

section

variable {d : Declarations} {p : Program}

theorem Program.fit_statements (fit : p.LiteralsFit) : Stmt.AllLiteralsFit p.statements := by
  apply Stmt.allLiteralsFit_of_forall
  intro s member
  obtain ⟨item, inside, same⟩ := List.mem_filterMap.mp member
  cases item with
  | definition f => cases same
  | prototype q => cases same
  | stmt s' =>
    cases same
    exact fit _ inside

theorem Program.fit_definition (fit : p.LiteralsFit) {f : Definition} (member : f ∈ p.definitions) :
    f.block.LiteralsFit := by
  obtain ⟨item, inside, same⟩ := List.mem_filterMap.mp member
  cases item with
  | definition f' =>
    cases same
    exact fit _ inside
  | prototype q => cases same
  | stmt s => cases same

theorem Program.sound_topSegment (of : d.Of p) (kept : p.violations = []) (fit : p.LiteralsFit)
    (labels : Nat) : (p.topSegment d.scope labels).Sound d.pending.size d.natives.size where
  balanced := by
    have body := Stmt.depthAfter_codeAll of.standing_top p.statements labels (p.kept_statements kept)
    have stop : depthAfter none 0 [.instr .stop] = some 0 := rfl
    exact depthAfter_trans body stop
  closed := by
    refine ⟨Stmt.codeAll d.scope labels p.statements, rfl, ?_⟩
    intro i member
    have refers := Stmt.refers_codeAll _ of.within_top p.statements labels (p.fit_statements fit) i member
    apply refers.mono
    unfold topSegment
    rw [labelsOf_append]
    exact List.subset_append_left _ _

theorem Definition.sound_segment (of : d.Of p) {f : Definition}
    (keeps : f.Keeps (Globals.declareAll [] p.items)) (fit : f.block.LiteralsFit)
    (labels : Nat) (entry : Label) :
    (f.segment d.scope labels entry).Sound d.pending.size d.natives.size where
  balanced := by
    have standing := of.standing_body f.header.paramNames
    have arity : f.header.paramNames.length = f.header.params.length := by
      unfold Header.paramNames
      rw [List.length_map]
    rw [arity] at standing
    have body := Stmt.depthAfter_code standing f.block labels keeps.body
    have enter : depthAfter (some f.header.params.length) 0 [.label entry] = some 0 := rfl
    exact depthAfter_trans enter body
  closed := by
    obtain ⟨before, same⟩ := Stmt.exists_code_eq_ret (d.scope.enterFunction f.header.paramNames)
      f.block labels keeps.ends
    have arity : (d.scope.enterFunction f.header.paramNames).paramCount =
        f.header.params.length := List.length_map _
    refine ⟨.label entry :: before, ?_, ?_⟩
    · unfold segment
      rw [same, arity]
      rfl
    · intro i member
      have inside : .instr i ∈ f.block.code (d.scope.enterFunction f.header.paramNames) labels := by
        have member' : .instr i ∈ before := by simpa using member
        rw [same]
        exact List.mem_append_left _ member'
      have refers := Stmt.refers_code _ (of.within_body f.header.paramNames) f.block labels fit i inside
      exact refers.mono (List.subset_cons_self _ _)

theorem Definition.sound_segments (of : d.Of p) (fs : List (Definition × Label)) (labels : Nat)
    (keeps : ∀ f ∈ fs.map Prod.fst, f.Keeps (Globals.declareAll [] p.items))
    (fit : ∀ f ∈ fs.map Prod.fst, f.block.LiteralsFit) :
    ∀ s ∈ Definition.segments d.scope labels fs, s.Sound d.pending.size d.natives.size := by
  induction fs generalizing labels with
  | nil => exact fun _ member => absurd member List.not_mem_nil
  | cons pair fs ih =>
    obtain ⟨f, entry⟩ := pair
    intro s member
    rcases List.mem_cons.mp member with rfl | member
    · exact Definition.sound_segment of (keeps f (by simp)) (fit f (by simp)) labels entry
    · exact ih _ (fun g inside => keeps g (by simp [inside]))
        (fun g inside => fit g (by simp [inside])) s member

theorem Program.sound_segments (of : d.Of p) (kept : p.violations = []) (fit : p.LiteralsFit) :
    ∀ s ∈ p.segments d, s.Sound d.pending.size d.natives.size := by
  intro s member
  rcases List.mem_cons.mp member with rfl | member
  · exact p.sound_topSegment of kept fit _
  · refine Definition.sound_segments of d.pending.toList _ (p.keeps_pending of kept) ?_ s member
    intro f inside
    rw [of.pending, List.zipIdx_map_fst] at inside
    exact p.fit_definition fit inside

theorem Definition.labelsOf_segments (scope : Scope) (fs : List (Definition × Label)) (labels : Nat) :
    (labelsOf (linesOf (Definition.segments scope labels fs))).Perm
      (fs.map Prod.snd ++ List.range' labels (Definition.labelCounts (fs.map Prod.fst))) := by
  induction fs generalizing labels with
  | nil => exact List.Perm.refl _
  | cons pair fs ih =>
    obtain ⟨f, entry⟩ := pair
    have body := Stmt.labelsOf_code (scope.enterFunction f.header.paramNames) f.block labels
    have split : labelsOf (linesOf (Definition.segments scope labels ((f, entry) :: fs))) =
        entry :: (labelsOf (f.block.code (scope.enterFunction f.header.paramNames) labels) ++
          labelsOf (linesOf (Definition.segments scope (labels + f.block.labelCount) fs))) := by
      rw [linesOf, Definition.segments, List.flatMap_cons, labelsOf_append]
      rfl
    have counts : Definition.labelCounts (((f, entry) :: fs).map Prod.fst) =
        f.block.labelCount + Definition.labelCounts (fs.map Prod.fst) := by
      simp [Definition.labelCounts]
    rw [split, counts, ← List.range'_append_1]
    apply List.Perm.cons
    exact (body.append (ih _)).trans (List.perm_append_comm_assoc _ _ _)

theorem Program.labelsOf_assembled (of : d.Of p) :
    (labelsOf (p.assembled d).lines.toList).Perm (List.range (p.assembled d).labels) := by
  have top := Stmt.labelsOf_codeAll d.scope p.statements d.pending.size
  have rest := Definition.labelsOf_segments d.scope d.pending.toList
    (d.pending.size + Stmt.labelCountAll p.statements)
  have firsts : d.pending.toList.map Prod.fst = p.definitions := by
    rw [of.pending, List.zipIdx_map_fst]
  have seconds : d.pending.toList.map Prod.snd = List.range' 0 d.pending.size := by
    rw [of.pending, List.zipIdx_map_snd, of.size_pending]
  have split : labelsOf (p.assembled d).lines.toList =
      labelsOf (Stmt.codeAll d.scope d.pending.size p.statements) ++
        labelsOf (linesOf (Definition.segments d.scope
          (d.pending.size + Stmt.labelCountAll p.statements) d.pending.toList)) := by
    change labelsOf (linesOf (p.segments d)) = _
    rw [segments, linesOf, List.flatMap_cons, labelsOf_append, topSegment, labelsOf_append]
    exact congrArg (· ++ _) (List.append_nil _)
  have total : List.range (p.assembled d).labels =
      List.range' 0 d.pending.size ++ (List.range' d.pending.size (Stmt.labelCountAll p.statements) ++
        List.range' (d.pending.size + Stmt.labelCountAll p.statements)
          (Definition.labelCounts p.definitions)) := by
    have labels : (p.assembled d).labels = d.pending.size + Stmt.labelCountAll p.statements +
        Definition.labelCounts p.definitions := rfl
    rw [labels, List.range_eq_range', ← List.range'_append_1, ← List.range'_append_1,
      List.append_assoc, Nat.zero_add, Nat.zero_add]
  rw [firsts, seconds] at rest
  rw [split, total]
  exact (top.append rest).trans (List.perm_append_comm_assoc _ _ _)

theorem mem_linesOf {segments : List Segment} {line : Line} :
    line ∈ linesOf segments ↔ ∃ s ∈ segments, line ∈ s.lines := List.mem_flatMap

theorem labelsOf_subset_linesOf {segments : List Segment} {s : Segment} (member : s ∈ segments) :
    labelsOf s.lines ⊆ labelsOf (linesOf segments) := by
  intro l inside
  rw [mem_labelsOf] at inside ⊢
  exact mem_linesOf.mpr ⟨s, member, inside⟩

theorem Segment.Sound.refers {functions natives : Nat} {s : Segment}
    (sound : s.Sound functions natives) {i : Instr Label} (member : .instr i ∈ s.lines) :
    i = .leaving s.arity? ∨ i.Refers functions natives (labelsOf s.lines) := by
  obtain ⟨before, same, refers⟩ := sound.closed
  rw [same] at member
  rcases List.mem_append.mp member with member | member
  · exact Or.inr (refers i member)
  · cases List.mem_singleton.mp member
    exact Or.inl rfl

theorem Segment.Sound.exists_rest {functions natives : Nat} {s : Segment}
    (sound : s.Sound functions natives) {before after : List Line} {line : Line}
    (split : s.lines = before ++ line :: after) (inner : line ≠ .instr (.leaving s.arity?) ∨ after ≠ []) :
    ∃ rest, after = rest ++ [.instr (.leaving s.arity?)] := by
  obtain ⟨body, same, _⟩ := sound.closed
  rw [split] at same
  rcases List.eq_nil_or_concat after with rfl | ⟨rest, last, rfl⟩
  · have ends := (List.append_inj' same rfl).2
    cases ends
    rcases inner with other | other
    · exact absurd rfl other
    · exact absurd rfl other
  · rw [List.concat_eq_append, ← List.cons_append, ← List.append_assoc] at same
    have ends := (List.append_inj' same rfl).2
    cases ends
    exact ⟨rest, List.concat_eq_append⟩

theorem Instr.target?_leaving (arity? : Option Nat) :
    (Instr.leaving arity? : Instr Label).target? = none := by
  cases arity? <;> rfl

theorem Program.wellLabelled (of : d.Of p) (kept : p.violations = []) (fit : p.LiteralsFit) :
    (p.assembled d).WellLabelled := by
  have perm := p.labelsOf_assembled of
  have entries : ∀ l, l < d.pending.size → l ∈ labelsOf (p.assembled d).lines.toList := by
    intro l small
    rw [perm.mem_iff, List.mem_range]
    have labels : (p.assembled d).labels = d.pending.size + Stmt.labelCountAll p.statements +
        Definition.labelCounts p.definitions := rfl
    omega
  constructor
  · exact perm.nodup_iff.mpr List.nodup_range
  · intro l member
    rw [perm.mem_iff, List.mem_range] at member
    exact member
  · intro i l member named
    obtain ⟨s, inside, here⟩ := mem_linesOf.mp member
    rcases (p.sound_segments of kept fit s inside).refers here with rfl | refers
    · cases (Instr.target?_leaving _).symm.trans named
    · cases i with
      | pushFunc entry =>
        cases named
        exact entries l refers
      | jump l' | jumpFalse l' =>
        cases named
        exact labelsOf_subset_linesOf inside refers
      | _ => cases named
  · intro f member
    obtain ⟨pair, inside, rfl⟩ := List.mem_map.mp member
    rw [of.pending] at inside
    apply entries
    rw [of.size_pending]
    exact List.snd_lt_of_mem_zipIdx inside
  · intro z member
    obtain ⟨s, inside, here⟩ := mem_linesOf.mp member
    rcases (p.sound_segments of kept fit s inside).refers here with same | refers
    · cases arity : s.arity? <;> rw [arity] at same <;> cases same
    · exact refers

theorem Program.exists_assembly {known : PrimitiveNames} (kept : p.violations = [])
    (knows : ∀ q ∈ p.prototypes, known q.primitive = .ok true) :
    ∃ d : Declarations, d.Of p ∧ p.assembly known = .ok (p.assembled d) := by
  obtain ⟨d, declared⟩ := p.exists_declarations kept knows
  exact ⟨d, Declarations.of_ofProgram declared, p.assembly_eq kept declared⟩

/-- Over primitives that are known the assembly of a program that keeps the rules is linked, up to a
number in it that needs more than 32 bits. -/
theorem Program.exists_linking {known : PrimitiveNames} (kept : p.violations = [])
    (fit : p.LiteralsFit) (knows : ∀ q ∈ p.prototypes, known q.primitive = .ok true)
    (filename : String) : ∃ d : Declarations, d.Of p ∧
      ((∃ v : Nat, p.compile known filename = .error (.label (.operand (.count v))) ∧
        LittleEndian.modulus 4 ≤ v ∧ (p.assembled d).Mentions v) ∨
      ∃ addr c, p.compile known filename = .ok c ∧ (p.assembled d).LinkedTo addr c) := by
  obtain ⟨d, of, assembled⟩ := p.exists_assembly kept knows
  refine ⟨d, of, ?_⟩
  unfold compile
  rw [assembled]
  rcases Assembly.link_cases (p.wellLabelled of kept fit) filename with
    ⟨v, failed, large, mentions⟩ | ⟨addr, c, linked, holds⟩
  · left
    exact ⟨v, by simp only [failed], large, mentions⟩
  · right
    exact ⟨addr, c, by simp only [linked], holds⟩

theorem Program.linked_of_compile {known : PrimitiveNames} {filename : String} {c : Code}
    (kept : p.violations = []) (fit : p.LiteralsFit) (compiled : p.compile known filename = .ok c) :
    ∃ d addr, d.Of p ∧ (p.assembled d).LinkedTo addr c := by
  unfold compile at compiled
  cases declared : Declarations.ofProgram known p with
  | error e =>
    have failed : p.assembly known = .error e := by
      unfold assembly
      rw [declared]
      rfl
    rw [failed] at compiled
    cases compiled
  | ok d =>
    have of := Declarations.of_ofProgram declared
    rw [p.assembly_eq kept declared] at compiled
    rcases Assembly.link_cases (p.wellLabelled of kept fit) filename with
      ⟨v, failed, _⟩ | ⟨addr, c', linked, holds⟩
    · simp only [failed] at compiled
      cases compiled
    · simp only [linked] at compiled
      cases compiled
      exact ⟨d, addr, of, holds⟩

end

end Tally

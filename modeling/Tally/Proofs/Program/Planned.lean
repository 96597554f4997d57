import Tally.Proofs.Machine.Discipline
import Tally.Proofs.Program.WellFormed

namespace Tally

def Program.plan (d : Declarations) (addr : Label → Nat) (c : Code) : Plan :=
  ⟨c, addr, d.pending.size, d.natives.size⟩

section

variable {p : Program} {d : Declarations} {addr : Label → Nat} {c : Code}

theorem Program.BindsBuiltins.builtin (binds : p.BindsBuiltins) {q : Prototype}
    (member : q ∈ p.prototypes) : q.native.Builtin := by
  rcases binds q member with ⟨primitive, params⟩ | ⟨primitive, params⟩
  · exact Or.inl ⟨primitive, congrArg Nat.cast params⟩
  · exact Or.inr ⟨primitive, congrArg Nat.cast params⟩

theorem Definition.exists_segment {scope : Scope} {fs : List (Definition × Label)}
    {labels offset : Nat} (holds : c.Holds addr offset (linesOf (segments scope labels fs)))
    {f : Definition} {entry : Label} (member : (f, entry) ∈ fs) :
    ∃ labels', f.segment scope labels' entry ∈ segments scope labels fs ∧
      c.Holds addr (addr entry) (f.segment scope labels' entry).lines := by
  induction fs generalizing labels offset with
  | nil => cases member
  | cons pair fs ih =>
    obtain ⟨g, other⟩ := pair
    rw [segments, linesOf, List.flatMap_cons] at holds
    rcases List.mem_cons.mp member with same | member
    · cases same
      have here : addr entry = offset := holds.left.1
      refine ⟨labels, List.mem_cons_self, ?_⟩
      rw [here]
      exact holds.left
    · obtain ⟨labels', inside, stands⟩ := ih holds.right member
      exact ⟨labels', List.mem_cons_of_mem _ inside, stands⟩

theorem Declarations.Of.mem_pending (of : d.Of p) {l : Label} {f : Definition}
    (here : p.definitions[l]? = some f) : (f, l) ∈ d.pending.toList := by
  rw [of.pending]
  exact List.mem_zipIdx_iff_getElem?.mpr here

theorem Assembly.LinkedTo.exists_segment (of : d.Of p) (linked : (p.assembled d).LinkedTo addr c)
    {l : Label} {f : Definition} (here : p.definitions[l]? = some f) :
    ∃ labels, f.segment d.scope labels l ∈ p.segments d ∧
      c.Holds addr (addr l) (f.segment d.scope labels l).lines := by
  have holds : c.Holds addr 0 ((p.topSegment d.scope d.pending.size).lines ++
      linesOf (Definition.segments d.scope (d.pending.size + Stmt.labelCountAll p.statements)
        d.pending.toList)) := linked.holds
  obtain ⟨labels, inside, stands⟩ := Definition.exists_segment holds.right (of.mem_pending here)
  exact ⟨labels, List.mem_cons_of_mem _ inside, stands⟩

theorem Assembly.LinkedTo.functionAt? (of : d.Of p) (kept : p.violations = [])
    (fit : p.LiteralsFit) (linked : (p.assembled d).LinkedTo addr c) {l : Label} {f : Definition}
    (here : p.definitions[l]? = some f) :
    c.functionAt? (addr l : Number) =
      some ⟨f.header.name.text, addr l, f.header.params.length⟩ := by
  obtain ⟨_, _, _, _, partition⟩ := Program.partition_of_linked of kept fit linked
  have member : (⟨f.header.name.text, addr l, f.header.params.length⟩ : EntryPoint) ∈ c.functions := by
    rw [linked.functions]
    exact List.mem_map.mpr ⟨⟨f.header.name.text, l, f.header.params.length⟩,
      List.mem_map.mpr ⟨(f, l), of.mem_pending here, rfl⟩, rfl⟩
  exact partition.found _ member

theorem Program.plan_sound (of : d.Of p) (kept : p.violations = []) (fit : p.LiteralsFit)
    (binds : p.BindsBuiltins) (linked : (p.assembled d).LinkedTo addr c) :
    (Program.plan d addr c).Sound := by
  have sound := p.sound_segments of kept fit
  constructor
  · have holds : c.Holds addr 0 ((p.topSegment d.scope d.pending.size).lines ++ _) := linked.holds
    exact Plan.site_of_sound (k := Program.plan d addr c) holds.left
      (sound _ List.mem_cons_self)
  · intro l small
    have bound : l < p.definitions.length := by
      rw [← of.size_pending]
      exact small
    have here := List.getElem?_eq_getElem bound
    obtain ⟨labels, inside, stands⟩ := linked.exists_segment of here
    exact ⟨addr l, p.definitions[l].header.params.length, _, rfl,
      linked.functionAt? of kept fit here, rfl,
      Plan.site_of_sound (k := Program.plan d addr c) stands (sound _ inside)⟩
  · intro i small
    have bound : i < p.prototypes.length := by
      rw [← of.size_natives]
      exact small
    refine ⟨p.prototypes[i].native, ?_, binds.builtin (List.getElem_mem bound)⟩
    have natives : c.natives = d.natives := linked.natives
    change c.natives[i]? = _
    rw [natives, ← Array.getElem?_toList, of.natives, List.getElem?_map,
      List.getElem?_eq_getElem bound]
    rfl

end

end Tally

import Tally.Proofs.Code.Listed
import Tally.Proofs.Program.Compiled

namespace Tally

/-- Code with the addresses of its labels and the numbers of its functions and natives. -/
structure Plan where
  code : Code
  addr : Label → Nat
  functions : Nat
  natives : Nat

/-- A place in a body with so many parameters, above so many values of the body. -/
def Plan.Site (k : Plan) (pc : Nat) (arity? : Option Nat) (depth : Nat) : Prop :=
  ∃ (s : Segment) (start : Nat) (before : List Line) (i : Instr Label) (after : List Line),
    k.code.Holds k.addr start s.lines ∧ s.Sound k.functions k.natives ∧ s.arity? = arity? ∧
      s.lines = before ++ .instr i :: after ∧ pc = start + sizeOfLines before ∧
        depthAfter arity? 0 before = some depth

theorem depthAfter_labels {arity? : Option Nat} {d d' : Nat} {marks : List Line}
    (labels : ∀ line ∈ marks, ∃ l, line = .label l)
    (counted : depthAfter arity? d marks = some d') : d' = d := by
  induction marks generalizing d with
  | nil =>
    cases counted
    rfl
  | cons line marks ih =>
    obtain ⟨l, rfl⟩ := labels line List.mem_cons_self
    rw [← List.nil_append (.label l :: marks)] at counted
    obtain ⟨e, e', first, here, rest⟩ := exists_of_depthAfter counted
    cases first
    have later := ih (fun line' member => labels line' (List.mem_cons_of_mem _ member)) rest
    obtain ⟨bottom, none⟩ := Line.counted_label here
    rw [later, none, bottom]

theorem Instr.bottom_of_jumpTarget {arity? : Option Nat} {d d' : Nat} {i : Instr Label} {l : Label}
    (counted : i.depthAfter arity? d = some d') (jumps : i.jumpTarget? = some l) : d' = 0 := by
  cases i with
  | jump _ => exact (counted_jump counted).2
  | jumpFalse _ => exact (counted_jumpFalse counted).2
  | _ => cases jumps

theorem Instr.Refers.jumpTarget {functions natives : Nat} {labels : List Label} {i : Instr Label}
    {l : Label} (refers : i.Refers functions natives labels) (jumps : i.jumpTarget? = some l) :
    l ∈ labels := by
  cases i with
  | jump _ | jumpFalse _ =>
    cases jumps
    exact refers
  | _ => cases jumps

namespace Plan

variable {k : Plan} {s : Segment} {start : Nat}

theorem site_of_split (holds : k.code.Holds k.addr start s.lines)
    (sound : s.Sound k.functions k.natives) {before rest : List Line} {last : Instr Label}
    (split : s.lines = before ++ (rest ++ [.instr last])) {depth : Nat}
    (counted : depthAfter s.arity? 0 before = some depth) :
    k.Site (start + sizeOfLines before) s.arity? depth := by
  obtain ⟨marks, i, after, same, size, labels⟩ := exists_instr_of_last rest last
  rw [same, ← List.append_assoc] at split
  have balanced := sound.balanced
  rw [split] at balanced
  obtain ⟨e, _, first, _, _⟩ := exists_of_depthAfter balanced
  have unchanged : e = depth := by
    rw [depthAfter_append, counted] at first
    exact depthAfter_labels labels first
  refine ⟨s, start, before ++ marks, i, after, holds, sound, rfl, split, ?_, ?_⟩
  · rw [sizeOfLines_append, size, Nat.add_zero]
  · rw [first, unchanged]

theorem site_of_sound (holds : k.code.Holds k.addr start s.lines)
    (sound : s.Sound k.functions k.natives) : k.Site start s.arity? 0 := by
  obtain ⟨before, same, _⟩ := sound.closed
  have split : s.lines = [] ++ (before ++ [.instr (.leaving s.arity?)]) := same
  exact site_of_split holds sound split rfl

theorem site_of_label (holds : k.code.Holds k.addr start s.lines)
    (sound : s.Sound k.functions k.natives) {l : Label} (named : l ∈ labelsOf s.lines) :
    k.Site (k.addr l) s.arity? 0 := by
  obtain ⟨before, after, split⟩ := List.append_of_mem (mem_labelsOf.mp named)
  have balanced := sound.balanced
  rw [split] at balanced
  obtain ⟨e, e', front, here, _⟩ := exists_of_depthAfter balanced
  have empty : e = 0 := (Line.counted_label here).1
  obtain ⟨others, rfl⟩ := sound.exists_rest split (Or.inl nofun)
  have behind : s.lines = (before ++ [.label l]) ++ (others ++ [.instr (.leaving s.arity?)]) := by
    rw [split, List.append_assoc]
    rfl
  have passed : depthAfter s.arity? 0 (before ++ [.label l]) = some 0 := by
    rw [empty] at front
    exact depthAfter_trans front rfl
  have site := site_of_split holds sound behind passed
  have address : k.addr l = start + sizeOfLines before := by
    rw [split] at holds
    exact holds.address
  rw [sizeOfLines_append, sizeOfLines_label] at site
  rw [address]
  exact site

/-- What stands at a place, and where control goes from there. -/
theorem Site.cases {pc depth : Nat} {arity? : Option Nat} (site : k.Site pc arity? depth) :
    ∃ (i : Instr Label) (depth' : Nat), k.code.HasInstr pc (i.map k.addr) ∧
      i.depthAfter arity? depth = some depth' ∧
      (i = .leaving arity? ∨ ((∃ labels, i.Refers k.functions k.natives labels) ∧
        k.Site (pc + i.size) arity? depth' ∧
          ∀ l, i.jumpTarget? = some l → k.Site (k.addr l) arity? depth')) := by
  obtain ⟨s, start, before, i, after, holds, sound, rfl, split, rfl, counted⟩ := site
  have balanced := sound.balanced
  rw [split] at balanced
  obtain ⟨e, depth', first, here, _⟩ := exists_of_depthAfter balanced
  cases first.symm.trans counted
  have step : i.depthAfter s.arity? depth = some depth' := here
  have stands : k.code.HasInstr (start + sizeOfLines before) (i.map k.addr) := by
    have inside := holds
    rw [split] at inside
    exact inside.right.1
  refine ⟨i, depth', stands, step, ?_⟩
  by_cases leaves : i = .leaving s.arity?
  · exact Or.inl leaves
  right
  have member : .instr i ∈ s.lines := by
    rw [split]
    simp
  have refers := (sound.refers member).resolve_left leaves
  obtain ⟨others, rfl⟩ := sound.exists_rest split (Or.inl fun same => leaves (by cases same; rfl))
  refine ⟨⟨_, refers⟩, ?_, ?_⟩
  · have behind : s.lines = (before ++ [.instr i]) ++ (others ++ [.instr (.leaving s.arity?)]) := by
      rw [split, List.append_assoc]
      rfl
    have passed : depthAfter s.arity? 0 (before ++ [.instr i]) = some depth' :=
      depthAfter_trans counted (by rw [depthAfter_singleton]; exact here)
    have site := site_of_split holds sound behind passed
    rw [sizeOfLines_append, sizeOfLines_instr, ← Nat.add_assoc] at site
    exact site
  · intro l jumps
    rw [Instr.bottom_of_jumpTarget step jumps]
    exact site_of_label holds sound (refers.jumpTarget jumps)

end Plan

end Tally

import Tally.Proofs.Assembly.Layout
import Tally.Proofs.Code.Depth

namespace Tally

abbrev Listing := List (Nat × Instr Nat)

def Instr.net {α : Type} : Instr α → Int
  | pushFunc _ | pushNative _ | pushInt _ | peek _ => 1
  | pop | add | jumpFalse _ | ret .. => -1
  | call n => -n
  | jump _ | stop => 0

namespace Listing

/-- The instructions fill the code between two offsets. -/
def Tiles : Nat → Nat → Listing → Prop
  | start, stop, [] => start = stop
  | start, stop, (offset, i) :: rest => offset = start ∧ Tiles (start + i.size) stop rest

def net : Listing → Int
  | [] => 0
  | (_, i) :: rest => i.net + net rest

end Listing

def located (addr : Label → Nat) : Nat → List Line → Listing
  | _, [] => []
  | offset, .label _ :: ls => located addr offset ls
  | offset, .instr i :: ls => (offset, i.map addr) :: located addr (offset + i.size) ls

theorem sizeOfLines_label (l : Label) (ls : List Line) :
    sizeOfLines (.label l :: ls) = sizeOfLines ls := by
  simp [sizeOfLines, Line.size]

theorem sizeOfLines_instr (i : Instr Label) (ls : List Line) :
    sizeOfLines (.instr i :: ls) = i.size + sizeOfLines ls := by
  simp [sizeOfLines, Line.size]

section

variable {addr : Label → Nat}

theorem located_append (offset : Nat) (ls ms : List Line) :
    located addr offset (ls ++ ms) =
      located addr offset ls ++ located addr (offset + sizeOfLines ls) ms := by
  induction ls generalizing offset with
  | nil => rfl
  | cons line ls ih =>
    cases line with
    | label l =>
      rw [List.cons_append, located, located, sizeOfLines_label, ih]
    | instr i =>
      rw [List.cons_append, located, located, sizeOfLines_instr, ih, Nat.add_assoc,
        List.cons_append]

theorem tiles_located (addr : Label → Nat) (offset : Nat) (ls : List Line) :
    Listing.Tiles offset (offset + sizeOfLines ls) (located addr offset ls) := by
  induction ls generalizing offset with
  | nil => rfl
  | cons line ls ih =>
    cases line with
    | label l =>
      rw [sizeOfLines_label]
      exact ih offset
    | instr i =>
      rw [sizeOfLines_instr, ← Nat.add_assoc, located, Listing.Tiles, Instr.size_map]
      exact ⟨rfl, ih (offset + i.size)⟩

theorem exists_of_located_eq {offset : Nat} {ls : List Line} {before after : Listing}
    {entry : Nat × Instr Nat} (same : located addr offset ls = before ++ entry :: after) :
    ∃ as i bs, ls = as ++ .instr i :: bs ∧ before = located addr offset as ∧
      entry = (offset + sizeOfLines as, i.map addr) := by
  induction ls generalizing offset before with
  | nil =>
    cases before <;> cases same
  | cons line ls ih =>
    cases line with
    | label l =>
      obtain ⟨as, i, bs, rfl, rfl, here⟩ := ih same
      refine ⟨.label l :: as, i, bs, rfl, rfl, ?_⟩
      rw [sizeOfLines_label, here]
    | instr i =>
      cases before with
      | nil =>
        cases same
        exact ⟨[], i, ls, rfl, rfl, rfl⟩
      | cons first before =>
        rw [located, List.cons_append, List.cons.injEq] at same
        obtain ⟨as, j, bs, rfl, rfl, here⟩ := ih same.2
        refine ⟨.instr i :: as, j, bs, rfl, ?_, ?_⟩
        · rw [located, same.1]
        · rw [sizeOfLines_instr, here, Nat.add_assoc]

theorem mem_located {offset : Nat} {ls : List Line} {entry : Nat × Instr Nat} :
    entry ∈ located addr offset ls ↔
      ∃ as i bs, ls = as ++ .instr i :: bs ∧ entry = (offset + sizeOfLines as, i.map addr) := by
  constructor
  · intro member
    obtain ⟨before, after, same⟩ := List.append_of_mem member
    obtain ⟨as, i, bs, lines, _, here⟩ := exists_of_located_eq same
    exact ⟨as, i, bs, lines, here⟩
  · rintro ⟨as, i, bs, rfl, rfl⟩
    rw [located_append, located]
    simp

theorem Instr.net_map_of_counted {arity? : Option Nat} {d d' : Nat} (addr : Label → Nat)
    (i : Instr Label) (counted : i.depthAfter arity? d = some d') :
    (d : Int) + (i.map addr).net = d' := by
  cases i with
  | pushFunc _ | pushNative _ | pushInt _ =>
    cases counted
    rfl
  | peek k =>
    obtain ⟨n, _, _, _, rfl⟩ := counted_peek counted
    rfl
  | pop =>
    obtain ⟨_, rfl⟩ := counted_pop counted
    simp only [map, net]
    omega
  | add =>
    obtain ⟨_, rfl⟩ := counted_add counted
    simp only [map, net]
    omega
  | call n =>
    obtain ⟨_, rfl⟩ := counted_call counted
    simp only [map, net]
    omega
  | ret k n =>
    obtain ⟨_, _, rfl, rfl⟩ := counted_ret counted
    rfl
  | jumpFalse l =>
    obtain ⟨rfl, rfl⟩ := counted_jumpFalse counted
    rfl
  | jump l =>
    obtain ⟨rfl, rfl⟩ := counted_jump counted
    rfl
  | stop =>
    obtain ⟨_, rfl, rfl⟩ := counted_stop counted
    rfl

theorem net_of_depthAfter {arity? : Option Nat} {ls : List Line} {d d' : Nat}
    (addr : Label → Nat) (offset : Nat)
    (counted : depthAfter arity? d ls = some d') :
    (d : Int) + (located addr offset ls).net = d' := by
  induction ls generalizing d offset with
  | nil =>
    cases counted
    exact Int.add_zero _
  | cons line ls ih =>
    unfold depthAfter at counted
    rw [List.foldlM_cons, Option.bind_eq_bind, Option.bind_eq_some_iff] at counted
    obtain ⟨e, first, rest⟩ := counted
    cases line with
    | label l =>
      obtain ⟨bottom, rfl⟩ := Line.counted_label first
      have later := ih offset rest
      rw [located]
      omega
    | instr i =>
      have step : (d : Int) + (i.map addr).net = e := i.net_map_of_counted addr first
      have later := ih (offset + i.size) rest
      have total : (located addr offset (.instr i :: ls)).net =
          (i.map addr).net + (located addr (offset + i.size) ls).net := rfl
      omega

theorem exists_instr_of_last (ls : List Line) (last : Instr Label) :
    ∃ marks i rest, ls ++ [.instr last] = marks ++ .instr i :: rest ∧ sizeOfLines marks = 0 ∧
      ∀ line ∈ marks, ∃ l, line = .label l := by
  induction ls with
  | nil => exact ⟨[], last, [], rfl, rfl, by simp⟩
  | cons line ls ih =>
    cases line with
    | instr i => exact ⟨[], i, ls ++ [.instr last], rfl, rfl, by simp⟩
    | label l =>
      obtain ⟨marks, i, rest, same, size, labels⟩ := ih
      refine ⟨.label l :: marks, i, rest, ?_, ?_, ?_⟩
      · rw [List.cons_append, same, List.cons_append]
      · rw [sizeOfLines_label, size]
      · intro line member
        rcases List.mem_cons.mp member with rfl | member
        · exact ⟨l, rfl⟩
        · exact labels line member

end

namespace Code

variable {c : Code} {addr : Label → Nat}

theorem mem_of_functionAt? {a : Number} {f : EntryPoint} (found : c.functionAt? a = some f) :
    f ∈ c.functions ∧ f.address = a := by
  have member := List.mem_of_getLast? found
  rw [List.mem_filter] at member
  exact ⟨member.1, by simpa using member.2⟩

theorem instrsFrom_of_holds {offset : Nat} {ls : List Line} (before : Listing)
    (holds : c.Holds addr offset ls) (length : c.length = offset + sizeOfLines ls) :
    c.instrsFrom before offset = .ok (before.reverse ++ located addr offset ls) := by
  induction ls generalizing offset before with
  | nil =>
    have finished : ¬ offset < c.length := by
      rw [length]
      exact Nat.lt_irrefl _
    rw [instrsFrom, if_neg finished, located, List.append_nil]
  | cons line ls ih =>
    cases line with
    | label l =>
      rw [sizeOfLines_label] at length
      exact ih before holds.2 length
    | instr i =>
      rw [sizeOfLines_instr] at length
      have positive := i.size_pos
      have more : offset < c.length := by omega
      have here := holds.1
      have rest := ih ((offset, i.map addr) :: before) holds.2 (by omega)
      rw [instrsFrom, if_pos more, here.opcode]
      simp only [Opcode.ofCode?_code, here.operands]
      have size : (i.map addr).opcode.size = i.size := i.size_map addr
      rw [size, rest, located, List.reverse_cons, List.append_assoc]
      rfl

theorem instrs_of_holds {ls : List Line} (holds : c.Holds addr 0 ls)
    (length : c.length = sizeOfLines ls) : c.instrs = .ok (located addr 0 ls) :=
  instrsFrom_of_holds [] holds (by omega)

end Code

end Tally

import Tally.Proofs.Code.Listed
import Tally.Proofs.Program.Accepted
import Tally.Proofs.Program.Compiled
import Mathlib.Data.List.Forall2
import Mathlib.Data.List.Nodup

namespace Tally

/-- A part of a listing, over the entries of all functions. A function has a number of parameters,
and the statements at the top have none. -/
structure Listing.Closed (part : Listing) (entries : List Nat) (arity? : Option Nat) : Prop where
  jumps : ∀ offset i target, (offset, i) ∈ part → i.jumpTarget? = some target →
    ∃ j, (target, j) ∈ part
  functions : ∀ offset entry, (offset, .pushFunc entry) ∈ part → entry ∈ entries
  returns : ∀ offset depth args, (offset, .ret depth args) ∈ part → depth = 0 ∧ arity? = some args
  arguments : ∀ (before after : Listing) (offset depth : Nat),
    part = before ++ (offset, .peek depth) :: after →
      ∃ n : Nat, arity? = some n ∧ before.net + 1 ≤ depth ∧ depth ≤ before.net + n
  ends : ∃ (before : Listing) (offset : Nat) (last : Instr Nat), part = before ++ [(offset, last)] ∧
    (∀ earlier, (earlier, .stop) ∉ before) ∧ last = .leaving arity?

/-- A listing split into a part for the top and, with their entries, parts for functions. -/
structure Code.Partition (p : Program) (c : Code) (listing top : Listing)
    (bodies : List (Nat × Listing)) : Prop where
  tiles : listing.Tiles 0 c.length
  split : listing = top ++ bodies.flatMap Prod.snd
  starts : ∀ body ∈ bodies, body.2.head?.map Prod.fst = some body.1
  increasing : (0 :: bodies.map Prod.fst).Pairwise (· < ·)
  count : bodies.length = p.definitions.length
  functions : c.functions = List.zipWith (fun f entry =>
    ⟨f.header.name.text, (entry : Nat), f.header.params.length⟩) p.definitions (bodies.map Prod.fst)
  found : ∀ f ∈ c.functions, c.functionAt? f.address = some f
  top_closed : top.Closed (bodies.map Prod.fst) none
  bodies_closed : ∀ f body, (f, body) ∈ p.definitions.zip bodies →
    body.2.Closed (bodies.map Prod.fst) (some f.header.params.length)

def placed (addr : Label → Nat) : Nat → List Segment → List (Nat × Listing)
  | _, [] => []
  | offset, s :: ss =>
    (offset, located addr offset s.lines) :: placed addr (offset + sizeOfLines s.lines) ss

section

variable {addr : Label → Nat} {c : Code}

theorem located_linesOf (offset : Nat) (ss : List Segment) :
    located addr offset (linesOf ss) = (placed addr offset ss).flatMap Prod.snd := by
  induction ss generalizing offset with
  | nil => rfl
  | cons s ss ih =>
    rw [linesOf, List.flatMap_cons, located_append, placed, List.flatMap_cons]
    exact congrArg _ (ih _)

theorem Segment.Sound.size_pos {functions natives : Nat} {s : Segment}
    (sound : s.Sound functions natives) : 0 < sizeOfLines s.lines := by
  obtain ⟨before, same, _⟩ := sound.closed
  have positive := (Instr.leaving s.arity? : Instr Label).size_pos
  rw [same, sizeOfLines_append, sizeOfLines_instr]
  omega

theorem increasing_placed {functions natives : Nat} (addr : Label → Nat) (offset : Nat) (ss : List Segment)
    (sound : ∀ s ∈ ss, s.Sound functions natives) :
    (∀ start ∈ (placed addr offset ss).map Prod.fst, offset ≤ start) ∧
      ((placed addr offset ss).map Prod.fst).Pairwise (· < ·) := by
  induction ss generalizing offset with
  | nil => exact ⟨fun _ member => absurd member List.not_mem_nil, List.Pairwise.nil⟩
  | cons s ss ih =>
    have positive := (sound s List.mem_cons_self).size_pos
    obtain ⟨later, increasing⟩ := ih (offset + sizeOfLines s.lines)
      (fun s' member => sound s' (List.mem_cons_of_mem _ member))
    rw [placed, List.map_cons]
    constructor
    · intro start member
      rcases List.mem_cons.mp member with rfl | member
      · exact Nat.le_refl _
      · have bound := later start member
        omega
    · rw [List.pairwise_cons]
      refine ⟨?_, increasing⟩
      intro start member
      have bound := later start member
      omega

theorem Segment.Sound.exists_located {functions natives : Nat} {s : Segment}
    (sound : s.Sound functions natives) {offset : Nat} (holds : c.Holds addr offset s.lines)
    {l : Label} (member : l ∈ labelsOf s.lines) :
    ∃ j, (addr l, j) ∈ located addr offset s.lines := by
  obtain ⟨as, bs, split⟩ := List.append_of_mem (mem_labelsOf.mp member)
  obtain ⟨rest, rfl⟩ := sound.exists_rest split (Or.inl nofun)
  obtain ⟨marks, i, others, here, size, _⟩ := exists_instr_of_last rest (.leaving s.arity?)
  rw [split] at holds
  refine ⟨i.map addr, mem_located.mpr ⟨as ++ .label l :: marks, i, others, ?_, ?_⟩⟩
  · rw [split, here, List.append_assoc, List.cons_append]
  · rw [holds.address, sizeOfLines_append, sizeOfLines_label, size, Nat.add_zero]

theorem Instr.map_eq_stop {i : Instr Label} (same : i.map addr = .stop) : i = .stop := by
  cases i <;> cases same
  rfl

theorem Segment.Sound.of_located {functions natives : Nat} {s : Segment}
    (sound : s.Sound functions natives) {offset start : Nat} {i : Instr Nat}
    (member : (start, i) ∈ located addr offset s.lines) :
    ∃ j : Instr Label, i = j.map addr ∧
      (j = .leaving s.arity? ∨ j.Refers functions natives (labelsOf s.lines)) ∧
        ∃ d d', j.depthAfter s.arity? d = some d' := by
  obtain ⟨as, j, bs, split, here⟩ := mem_located.mp member
  have inside : .instr j ∈ s.lines := by
    rw [split]
    simp
  have balanced := sound.balanced
  rw [split] at balanced
  obtain ⟨d, d', _, step, _⟩ := exists_of_depthAfter balanced
  rw [Prod.mk.injEq] at here
  exact ⟨j, here.2, sound.refers inside, d, d', step⟩

theorem Segment.Sound.closed_located {functions natives : Nat} {s : Segment}
    (sound : s.Sound functions natives) {offset : Nat} (holds : c.Holds addr offset s.lines)
    {entries : List Nat} (listed : ∀ l, l < functions → addr l ∈ entries) :
    (located addr offset s.lines).Closed entries s.arity? where
  jumps := by
    intro start i target member jumps
    obtain ⟨j, rfl, names, _⟩ := sound.of_located member
    rcases names with rfl | refers
    · cases arity : s.arity? <;> rw [arity] at jumps <;> cases jumps
    · cases j with
      | jump l | jumpFalse l =>
        cases jumps
        exact sound.exists_located holds refers
      | _ => cases jumps
  functions := by
    intro start entry member
    obtain ⟨j, same, names, _⟩ := sound.of_located member
    cases j with
    | pushFunc l =>
      cases same
      rcases names with leaves | refers
      · cases arity : s.arity? <;> rw [arity] at leaves <;> cases leaves
      · exact listed l refers
    | _ => cases same
  returns := by
    intro start depth args member
    obtain ⟨j, same, _, d, d', step⟩ := sound.of_located member
    cases j with
    | ret k n =>
      cases same
      obtain ⟨arity, none, _⟩ := Instr.counted_ret step
      exact ⟨none, arity⟩
    | _ => cases same
  arguments := by
    intro before after start depth same
    obtain ⟨as, j, bs, split, rfl, here⟩ := exists_of_located_eq same
    have balanced := sound.balanced
    rw [split] at balanced
    obtain ⟨d, d', first, step, _⟩ := exists_of_depthAfter balanced
    have sum := net_of_depthAfter addr offset first
    rw [Prod.mk.injEq] at here
    cases j with
    | peek k =>
      cases here.2
      have counted : (Instr.peek depth : Instr Label).depthAfter s.arity? d = some d' := step
      obtain ⟨n, arity, lower, upper, _⟩ := Instr.counted_peek counted
      exact ⟨n, arity, by omega, by omega⟩
    | _ => cases here.2
  ends := by
    obtain ⟨before, same, refers⟩ := sound.closed
    refine ⟨located addr offset before, offset + sizeOfLines before,
      (Instr.leaving s.arity?).map addr, ?_, ?_, ?_⟩
    · rw [same, located_append]
      rfl
    · intro earlier member
      obtain ⟨as, j, bs, split, here⟩ := mem_located.mp member
      rw [Prod.mk.injEq] at here
      have stop := Instr.map_eq_stop here.2.symm
      exact refers .stop (by rw [split, stop]; simp)
    · cases s.arity? <;> rfl

theorem Code.functionAt?_of_nodup {c : Code} (nodup : (c.functions.map EntryPoint.address).Nodup)
    {f : EntryPoint} (member : f ∈ c.functions) : c.functionAt? f.address = some f := by
  unfold Code.functionAt?
  generalize c.functions = fs at nodup member
  induction fs with
  | nil => cases member
  | cons g fs ih =>
    rw [List.map_cons, List.nodup_cons] at nodup
    rcases List.mem_cons.mp member with rfl | member
    · have others : fs.filter (fun g => g.address = f.address) = [] := by
        apply List.filter_eq_nil_iff.mpr
        intro g inside same
        apply nodup.1
        rw [← of_decide_eq_true same]
        exact List.mem_map_of_mem inside
      rw [List.filter_cons_of_pos (by simp), others]
      rfl
    · have other : g.address ≠ f.address := by
        intro same
        apply nodup.1
        rw [same]
        exact List.mem_map_of_mem member
      rw [List.filter_cons_of_neg (by simpa using other)]
      exact ih nodup.2 member

theorem Segment.Sound.head?_located {functions natives : Nat} {s : Segment}
    (sound : s.Sound functions natives) (offset : Nat) :
    (located addr offset s.lines).head?.map Prod.fst = some offset := by
  obtain ⟨before, same, _⟩ := sound.closed
  obtain ⟨marks, i, others, here, size, labels⟩ := exists_instr_of_last before (.leaving s.arity?)
  have empty : located addr offset marks = [] := by
    clear here size
    induction marks with
    | nil => rfl
    | cons line marks ih =>
      obtain ⟨l, rfl⟩ := labels line List.mem_cons_self
      exact ih fun line' member => labels line' (List.mem_cons_of_mem _ member)
  rw [same, here, located_append, empty, size]
  rfl

theorem starts_placed {functions natives : Nat} (offset : Nat) (ss : List Segment)
    (sound : ∀ s ∈ ss, s.Sound functions natives) :
    ∀ part ∈ placed addr offset ss, part.2.head?.map Prod.fst = some part.1 := by
  induction ss generalizing offset with
  | nil => exact fun _ member => absurd member List.not_mem_nil
  | cons s ss ih =>
    intro part member
    rcases List.mem_cons.mp member with rfl | member
    · exact (sound s List.mem_cons_self).head?_located offset
    · exact ih _ (fun s' inside => sound s' (List.mem_cons_of_mem _ inside)) part member

theorem Definition.entries_placed {scope : Scope} {fs : List (Definition × Label)}
    {labels offset : Nat} (holds : c.Holds addr offset (linesOf (segments scope labels fs))) :
    (placed addr offset (segments scope labels fs)).map Prod.fst =
      fs.map fun pair => addr pair.2 := by
  induction fs generalizing labels offset with
  | nil => rfl
  | cons pair fs ih =>
    obtain ⟨f, entry⟩ := pair
    rw [segments, linesOf, List.flatMap_cons] at holds
    have here : addr entry = offset := holds.left.1
    have rest := ih holds.right
    rw [segments, placed, List.map_cons, List.map_cons, rest, here]

theorem Definition.closed_placed {scope : Scope} {functions natives : Nat} {entries : List Nat}
    {fs : List (Definition × Label)} {labels offset : Nat}
    (holds : c.Holds addr offset (linesOf (segments scope labels fs)))
    (sound : ∀ s ∈ segments scope labels fs, s.Sound functions natives)
    (listed : ∀ l, l < functions → addr l ∈ entries) :
    List.Forall₂ (fun f body => body.2.Closed entries (some f.header.params.length))
      (fs.map Prod.fst) (placed addr offset (segments scope labels fs)) := by
  induction fs generalizing labels offset with
  | nil => exact List.Forall₂.nil
  | cons pair fs ih =>
    obtain ⟨f, entry⟩ := pair
    have here := sound (f.segment scope labels entry) List.mem_cons_self
    rw [segments, linesOf, List.flatMap_cons] at holds
    rw [segments, placed, List.map_cons]
    refine List.Forall₂.cons (here.closed_located holds.left listed) ?_
    exact ih holds.right fun s member => sound s (List.mem_cons_of_mem _ member)

def Program.topListing (p : Program) (d : Declarations) (addr : Label → Nat) : Listing :=
  located addr 0 (p.topSegment d.scope d.pending.size).lines

def Program.functionListings (p : Program) (d : Declarations) (addr : Label → Nat) : List (Nat × Listing) :=
  placed addr (sizeOfLines (p.topSegment d.scope d.pending.size).lines)
    (Definition.segments d.scope (d.pending.size + Stmt.labelCountAll p.statements)
      d.pending.toList)

theorem Program.partition_listings {p : Program} {d : Declarations} (of : d.Of p)
    (kept : p.violations = []) (fit : p.LiteralsFit) (linked : (p.assembled d).LinkedTo addr c) :
    ∃ listing, c.instrs = .ok listing ∧
      c.Partition p listing (p.topListing d addr) (p.functionListings d addr) := by
  let labels := d.pending.size + Stmt.labelCountAll p.statements
  let top := p.topSegment d.scope d.pending.size
  let rest := Definition.segments d.scope labels d.pending.toList
  let bodies := placed addr (sizeOfLines top.lines) rest
  have sound : ∀ s ∈ p.segments d, s.Sound d.pending.size d.natives.size :=
    p.sound_segments of kept fit
  have soundTop : top.Sound d.pending.size d.natives.size := sound top List.mem_cons_self
  have holds : c.Holds addr 0 (top.lines ++ linesOf rest) := linked.holds
  have holdsRest : c.Holds addr (sizeOfLines top.lines) (linesOf rest) := by
    have right := holds.right
    rwa [Nat.zero_add] at right
  have definitions : d.pending.toList.map Prod.fst = p.definitions := by
    rw [of.pending, List.zipIdx_map_fst]
  have entries : bodies.map Prod.fst = d.pending.toList.map fun pair => addr pair.2 :=
    Definition.entries_placed holdsRest
  have listed : ∀ l, l < d.pending.size → addr l ∈ bodies.map Prod.fst := by
    intro l small
    rw [of.size_pending] at small
    rw [entries, of.pending]
    exact List.mem_map.mpr ⟨(p.definitions[l], l),
      List.mem_zipIdx_iff_getElem?.mpr (List.getElem?_eq_getElem small), rfl⟩
  have closed := Definition.closed_placed holdsRest
    (fun s member => sound s (List.mem_cons_of_mem _ member)) listed
  rw [definitions, List.forall₂_iff_zip] at closed
  have increasing : (0 :: bodies.map Prod.fst).Pairwise (· < ·) := by
    have all := (increasing_placed addr 0 (p.segments d) sound).2
    change (placed addr 0 (top :: rest)).map Prod.fst |>.Pairwise (· < ·) at all
    rw [placed, Nat.zero_add] at all
    exact all
  have functions : c.functions = List.zipWith (fun f entry =>
      ⟨f.header.name.text, (entry : Nat), f.header.params.length⟩) p.definitions
        (bodies.map Prod.fst) := by
    rw [linked.functions, entries, ← definitions, List.zipWith_map, List.zipWith_self]
    exact List.map_map
  have addresses : c.functions.map EntryPoint.address = (bodies.map Prod.fst).map Nat.cast := by
    rw [linked.functions, entries, List.map_map, List.map_map]
    exact List.map_map
  refine ⟨located addr 0 (top.lines ++ linesOf rest), ?_, ?_⟩
  · exact Code.instrs_of_holds holds linked.length
  · constructor
    · have tiles := tiles_located addr 0 (top.lines ++ linesOf rest)
      rw [Nat.zero_add] at tiles
      have length : c.length = sizeOfLines (top.lines ++ linesOf rest) := linked.length
      rwa [length]
    · rw [located_append, Nat.zero_add, located_linesOf]
      rfl
    · exact starts_placed _ rest fun s member => sound s (List.mem_cons_of_mem _ member)
    · exact increasing
    · exact closed.1.symm
    · exact functions
    · intro f member
      apply Code.functionAt?_of_nodup _ member
      rw [addresses]
      apply List.Nodup.map
      · exact fun _ _ => Rat.natCast_inj.mp
      · exact (List.pairwise_cons.mp increasing).2.imp Nat.ne_of_lt
    · exact soundTop.closed_located holds.left listed
    · exact fun f body inside => closed.2 inside

theorem Program.partition_of_linked {p : Program} {d : Declarations} (of : d.Of p)
    (kept : p.violations = []) (fit : p.LiteralsFit) (linked : (p.assembled d).LinkedTo addr c) :
    ∃ listing top bodies, c.instrs = .ok listing ∧ c.Partition p listing top bodies := by
  obtain ⟨listing, listed, partition⟩ := p.partition_listings of kept fit linked
  exact ⟨listing, _, _, listed, partition⟩

/-- The code of a program that was read and keeps the rules is well formed. -/
theorem Program.partition_of_compile {known : PrimitiveNames} {filename text : String} {p : Program}
    {c : Code} (read : Program.parse text = .ok p) (kept : p.violations = [])
    (compiled : p.compile known filename = .ok c) :
    ∃ listing top bodies, c.instrs = .ok listing ∧ c.Partition p listing top bodies := by
  have fit := literalsFit_of_parse read
  obtain ⟨d, addr, of, linked⟩ := linked_of_compile kept fit compiled
  exact partition_of_linked of kept fit linked

theorem Program.partition_of_compile_sample : ∃ p listing top bodies,
    Program.parse sampleText = .ok p ∧ p.violations = [] ∧
      p.compile (Registry.builtins Memory.channel).knows "sample" = .ok sampleCode ∧
      sampleCode.instrs = .ok listing ∧ sampleCode.Partition p listing top bodies := by
  obtain ⟨p, read, kept, _, compiled, _⟩ := exists_sample
  obtain ⟨listing, top, bodies, listed, partition⟩ := Program.partition_of_compile read kept compiled
  exact ⟨p, listing, top, bodies, read, kept, compiled, listed, partition⟩

end

end Tally

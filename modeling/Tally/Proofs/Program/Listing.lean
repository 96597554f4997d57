import Tally.Proofs.Code.Reread
import Tally.Proofs.Program.WellFormed
import Mathlib.Data.List.Perm.Basic

namespace Tally

def Definition.heading (f : Definition) : String := s!"{f.header.name.text}/{f.header.params.length}:"

/-- The parts of a listing are the instructions of the statements at the top and of the bodies of the
functions. -/
def Program.ListedAs (p : Program) (top : Listing) (bodies : List (Nat × Listing)) : Prop :=
  ∃ (d : Declarations) (addr : Label → Nat), d.Of p ∧ top = p.topListing d addr ∧
    List.Forall₂ (fun f body => ∃ labels, body.2 =
        located addr body.1 (f.block.code (d.scope.enterFunction f.header.paramNames) labels))
      p.definitions bodies

theorem Definition.code_placed {addr : Label → Nat} {scope : Scope} {fs : List (Definition × Label)}
    {labels offset : Nat} :
    List.Forall₂ (fun f body => ∃ labels, body.2 =
        located addr body.1 (f.block.code (scope.enterFunction f.header.paramNames) labels))
      (fs.map Prod.fst) (placed addr offset (segments scope labels fs)) := by
  induction fs generalizing labels offset with
  | nil => exact List.Forall₂.nil
  | cons pair fs ih =>
    obtain ⟨f, entry⟩ := pair
    exact List.Forall₂.cons ⟨labels, rfl⟩ ih

theorem Listing.Tiles.increasing {listing : Listing} {start stop : Nat}
    (tiles : listing.Tiles start stop) :
    (∀ e ∈ listing, start ≤ e.1) ∧ (listing.map Prod.fst).Pairwise (· < ·) := by
  induction listing generalizing start with
  | nil => exact ⟨nofun, .nil⟩
  | cons e listing ih =>
    obtain ⟨offset, i⟩ := e
    obtain ⟨rfl, rest⟩ := tiles
    obtain ⟨later, apart⟩ := ih rest
    have positive := i.size_pos
    refine ⟨List.forall_mem_cons.mpr ⟨Nat.le_refl _, fun e member => ?_⟩, .cons ?_ apart⟩
    · have bound := later e member
      omega
    · intro place member
      obtain ⟨e, inside, rfl⟩ := List.mem_map.mp member
      have bound := later e inside
      omega

theorem Definition.isHeading_heading (f : Definition) : isHeading f.heading.toList = true :=
  isHeading_append_colon _

theorem Listing.filter_isHeading (listing : Listing) :
    (listing.lines.map String.toList).filter isHeading = [] := by
  apply List.filter_eq_nil_iff.mpr
  intro line member
  obtain ⟨shown, inside, rfl⟩ := List.mem_map.mp member
  obtain ⟨e, _, rfl⟩ := List.mem_map.mp inside
  simp [e.2.not_isHeading_line e.1]

theorem Number.text_natCast {n : Nat} (small : n ≤ 1 <<< precision) :
    (n : Number).text = toString n := by
  have whole : (n : Number).den = 1 ∧ (n : Number).num.natAbs ≤ 1 <<< precision := ⟨rfl, small⟩
  unfold text
  rw [if_pos whole]
  rfl

namespace Code

variable {c : Code} {p : Program} {listing top : Listing} {bodies : List (Nat × Listing)}

theorem headingsAt_of_ne {offset : Nat} (inside : offset ≠ 0)
    (other : ∀ f ∈ c.functions, f.address ≠ offset) : c.headingsAt offset = [] := by
  have none : c.functionAt? offset = none := by
    cases found : c.functionAt? offset with
    | none => rfl
    | some f =>
      obtain ⟨member, same⟩ := mem_of_functionAt? found
      exact absurd same (other f member)
  rw [headingsAt, if_neg inside, none]
  rfl

theorem flatMap_linesAt {part : Listing} {start : Nat} {i : Instr Nat} {rest : Listing}
    (split : part = (start, i) :: rest) (bare : ∀ e ∈ rest, c.headingsAt e.1 = []) :
    (part.flatMap fun e => c.linesAt e.1 e.2) = c.headingsAt start ++ part.lines := by
  have others : (rest.flatMap fun e => c.linesAt e.1 e.2) = rest.lines := by
    have one : ∀ e ∈ rest, c.linesAt e.1 e.2 = [e.2.line e.1] := fun e member => by
      rw [linesAt_eq, bare e member]
      rfl
    rw [List.flatMap_congr one]
    exact List.map_eq_flatMap.symm
  rw [split, List.flatMap_cons, others, linesAt_eq]
  simp [Listing.lines]

namespace Partition

theorem exists_parts (partition : c.Partition p listing top bodies) :
    ∀ part ∈ (0, top) :: bodies, ∃ i, part.2 = (part.1, i) :: part.2.tail := by
  have first (part : Nat × Listing) (starts : part.2.head?.map Prod.fst = some part.1) :
      ∃ i, part.2 = (part.1, i) :: part.2.tail := by
    obtain ⟨start, entries⟩ := part
    cases entries with
    | nil => cases starts
    | cons e rest =>
      cases starts
      exact ⟨e.2, rfl⟩
  refine List.forall_mem_cons.mpr ⟨first _ ?_, fun part member => first _ ?_⟩
  · obtain ⟨before, offset, last, ends, _⟩ := partition.top_closed.ends
    have tiles := partition.tiles
    rw [partition.split] at tiles
    cases top with
    | nil => simp at ends
    | cons e rest => exact congrArg some tiles.1
  · exact partition.starts part member

theorem not_mem_starts (partition : c.Partition p listing top bodies) :
    ∀ part ∈ (0, top) :: bodies, ∀ e ∈ part.2.tail, e.1 ∉ 0 :: bodies.map Prod.fst := by
  have whole : listing.map Prod.fst = ((0, top) :: bodies).flatMap fun part =>
      part.1 :: part.2.tail.map Prod.fst := by
    have parts : listing = ((0, top) :: bodies).flatMap Prod.snd := partition.split
    rw [parts, List.map_flatMap]
    refine List.flatMap_congr fun part member => ?_
    obtain ⟨i, split⟩ := partition.exists_parts part member
    exact congrArg (List.map Prod.fst) split
  have nodup : (listing.map Prod.fst).Nodup := partition.tiles.increasing.2.imp Nat.ne_of_lt
  have perm := List.map_append_flatMap_perm ((0, top) :: bodies) Prod.fst fun part =>
    part.2.tail.map Prod.fst
  rw [whole, ← perm.nodup_iff, List.nodup_append] at nodup
  intro part member e inside start
  exact nodup.2.2 _ start _ (List.mem_flatMap.mpr ⟨part, member, List.mem_map_of_mem inside⟩) rfl

theorem functions_eq (partition : c.Partition p listing top bodies) :
    c.functions = (p.definitions.zip bodies).map fun (f, body) =>
      ⟨f.header.name.text, (body.1 : Nat), f.header.params.length⟩ := by
  rw [partition.functions, List.zipWith_map_right, List.zip, List.map_zipWith]

theorem address_mem (partition : c.Partition p listing top bodies) {f : EntryPoint}
    (member : f ∈ c.functions) : ∃ start ∈ bodies.map Prod.fst, f.address = start := by
  rw [partition.functions_eq] at member
  obtain ⟨⟨g, body⟩, inside, rfl⟩ := List.mem_map.mp member
  exact ⟨body.1, List.mem_map_of_mem (List.of_mem_zip inside).2, rfl⟩

theorem lines_of_part (partition : c.Partition p listing top bodies) {part : Nat × Listing}
    (member : part ∈ (0, top) :: bodies) :
    (part.2.flatMap fun e => c.linesAt e.1 e.2) = c.headingsAt part.1 ++ part.2.lines := by
  obtain ⟨i, split⟩ := partition.exists_parts part member
  refine flatMap_linesAt split fun e inside => ?_
  have apart := partition.not_mem_starts part member e inside
  rw [List.mem_cons, not_or] at apart
  refine headingsAt_of_ne apart.1 fun f listed same => ?_
  obtain ⟨start, entry, address⟩ := partition.address_mem listed
  exact apart.2 (Rat.natCast_inj.mp (same.symm.trans address) ▸ entry)

theorem entry_pos (partition : c.Partition p listing top bodies) :
    ∀ start ∈ bodies.map Prod.fst, 0 < start :=
  (List.pairwise_cons.mp partition.increasing).1

theorem headingsAt_zero (partition : c.Partition p listing top bodies) :
    c.headingsAt 0 = ["<main>:"] := by
  have none : c.functionAt? (0 : Nat) = none := by
    cases found : c.functionAt? (0 : Nat) with
    | none => rfl
    | some f =>
      obtain ⟨member, same⟩ := mem_of_functionAt? found
      obtain ⟨start, entry, address⟩ := partition.address_mem member
      have first := Rat.natCast_inj.mp (same.symm.trans address)
      exact absurd (partition.entry_pos start entry) (first ▸ Nat.lt_irrefl 0)
  rw [headingsAt, none]
  rfl

theorem params_lt (partition : c.Partition p listing top bodies) (fits : ∀ e ∈ listing, e.2.Fits)
    {f : Definition} {body : Nat × Listing} (member : (f, body) ∈ p.definitions.zip bodies) :
    f.header.params.length < LittleEndian.modulus 4 := by
  obtain ⟨before, offset, last, ends, _, leaves⟩ := (partition.bodies_closed f body member).ends
  have inside : (offset, last) ∈ listing := by
    rw [partition.split]
    refine List.mem_append_right _ (List.mem_flatMap.mpr ⟨body, (List.of_mem_zip member).2, ?_⟩)
    rw [ends]
    exact List.mem_append_right _ List.mem_cons_self
  have fit := fits _ inside
  rw [leaves] at fit
  exact fit (.count _) (List.mem_cons_of_mem _ List.mem_cons_self)

theorem heading_eq (partition : c.Partition p listing top bodies) (fits : ∀ e ∈ listing, e.2.Fits)
    {f : Definition} {body : Nat × Listing} (member : (f, body) ∈ p.definitions.zip bodies) :
    EntryPoint.heading ⟨f.header.name.text, (body.1 : Nat), f.header.params.length⟩ =
      f.heading := by
  have few := Nat.le_of_lt (partition.params_lt fits member)
  have arity := Number.text_natCast (Nat.le_trans few (by decide))
  rw [EntryPoint.heading, arity]
  rfl

theorem headingsAt_entry (partition : c.Partition p listing top bodies)
    (fits : ∀ e ∈ listing, e.2.Fits) {f : Definition} {body : Nat × Listing}
    (member : (f, body) ∈ p.definitions.zip bodies) : c.headingsAt body.1 = [f.heading] := by
  have listed : (⟨f.header.name.text, (body.1 : Nat), f.header.params.length⟩ : EntryPoint) ∈
      c.functions := by
    rw [partition.functions_eq]
    exact List.mem_map_of_mem member
  have found : c.functionAt? (body.1 : Nat) = _ := partition.found _ listed
  have inside := partition.entry_pos _ (List.mem_map_of_mem (List.of_mem_zip member).2)
  rw [headingsAt, if_neg (Nat.ne_of_gt inside), found]
  exact congrArg (fun heading => [heading]) (partition.heading_eq fits member)

theorem lines_eq (partition : c.Partition p listing top bodies)
    (fits : ∀ e ∈ listing, e.2.Fits) : (listing.flatMap fun e => c.linesAt e.1 e.2) =
      "<main>:" :: (top.lines ++ (p.definitions.zip bodies).flatMap fun (f, body) =>
        f.heading :: body.2.lines) := by
  have parts : listing = ((0, top) :: bodies).flatMap Prod.snd := partition.split
  have each := List.flatMap_congr fun _ member => partition.lines_of_part member
  have functions : (bodies.flatMap fun body => c.headingsAt body.1 ++ body.2.lines) =
      (p.definitions.zip bodies).flatMap fun (f, body) => f.heading :: body.2.lines := by
    have all : (p.definitions.zip bodies).map Prod.snd = bodies :=
      List.map_snd_zip (Nat.le_of_eq partition.count)
    rw [← all, List.flatMap_map, all]
    refine List.flatMap_congr fun (f, body) member => ?_
    rw [partition.headingsAt_entry fits member]
    rfl
  rw [parts, List.flatMap_assoc, each, List.flatMap_cons, partition.headingsAt_zero, functions]
  rfl

theorem filter_isHeading (partition : c.Partition p listing top bodies) :
    (("<main>:" :: (top.lines ++ (p.definitions.zip bodies).flatMap fun (f, body) =>
      f.heading :: body.2.lines)).map String.toList).filter isHeading =
        ("<main>:" :: p.definitions.map Definition.heading).map String.toList := by
  have main : isHeading "<main>:".toList = true := by decide
  have one (f : Definition) (body : Nat × Listing) :
      ((f.heading :: body.2.lines).map String.toList).filter isHeading = [f.heading.toList] := by
    rw [List.map_cons, List.filter_cons_of_pos f.isHeading_heading, body.2.filter_isHeading]
  have all : (p.definitions.zip bodies).map Prod.fst = p.definitions :=
    List.map_fst_zip (Nat.le_of_eq partition.count.symm)
  rw [List.map_cons, List.filter_cons_of_pos main, List.map_append, List.filter_append,
    top.filter_isHeading, List.nil_append, List.map_flatMap, List.filter_flatMap]
  simp only [one]
  rw [← List.map_eq_flatMap, List.map_cons, List.map_map]
  conv_rhs => rw [← all]
  rw [List.map_map]
  rfl

theorem no_break_heading (partition : c.Partition p listing top bodies)
    (fits : ∀ e ∈ listing, e.2.Fits) (names : ∀ f ∈ p.definitions, '\n' ∉ f.heading.toList) :
    ∀ f ∈ c.functions, '\n' ∉ f.heading.toList := by
  intro f member
  rw [partition.functions_eq] at member
  obtain ⟨⟨g, body⟩, inside, rfl⟩ := List.mem_map.mp member
  dsimp only
  rw [partition.heading_eq fits inside]
  exact names g (List.of_mem_zip inside).1

end Partition

end Code

namespace Program

variable {text : String} {p : Program}

theorem no_break_heading_of_parse (read : parse text = .ok p) :
    ∀ f ∈ p.definitions, '\n' ∉ f.heading.toList := by
  intro f member
  obtain ⟨item, inside, same⟩ := List.mem_filterMap.mp member
  have mark : f.header.name.mark ∈ p.marks := by
    refine List.mem_flatMap.mpr ⟨item, inside, ?_⟩
    cases item <;> cases same
    exact List.mem_append_left _ (List.mem_cons_of_mem _ List.mem_cons_self)
  obtain ⟨_, word, _⟩ := spelt_of_parse read _ mark
  have other : isWordChar '\n' = false := by decide
  have digits : '\n' ∉ (toString f.header.params.length).toList := by
    intro broken
    have number := isListed_of_mem_toString (z := f.header.params.length) broken
    have unlisted : isListed '\n' = false := by decide
    rw [unlisted] at number
    cases number
  have name : '\n' ∉ f.header.name.text.toList := fun broken => by
    have inName := word _ broken
    rw [other] at inName
    cases inName
  have written : f.heading = f.header.name.text ++ "/" ++ toString f.header.params.length ++ ":" := rfl
  rw [written]
  simp only [String.toList_append, List.mem_append, not_or]
  exact ⟨⟨⟨name, by decide⟩, digits⟩, by decide⟩

/-- The lines of a listing are the heading of the statements at the top and their instructions, then
the heading and the instructions of each function, in the order of the functions. The instructions
that are read back from the lines write the bytes of the code. -/
theorem listing_faithful {known : PrimitiveNames} {filename : String} {c : Code}
    (read : parse text = .ok p) (kept : p.violations = [])
    (compiled : p.compile known filename = .ok c) :
    ∃ listing top bodies output, c.instrs = .ok listing ∧ c.Partition p listing top bodies ∧
      p.ListedAs top bodies ∧ c.listing = .ok output ∧
      textLines output = ("<main>:" :: (top.lines ++
        (p.definitions.zip bodies).flatMap fun (f, body) => f.heading :: body.2.lines)).map
          String.toList ∧
      (textLines output).filter isHeading =
        ("<main>:" :: p.definitions.map Definition.heading).map String.toList ∧
      ∃ parts b, reread? output = some parts ∧ Builder.empty.emitAll parts = .ok b ∧
        b.bytes = c.bytes := by
  have fit := literalsFit_of_parse read
  obtain ⟨d, addr, of, linked⟩ := linked_of_compile kept fit compiled
  obtain ⟨listing, listed, partition⟩ := p.partition_listings of kept fit linked
  obtain ⟨fits, bytes⟩ := Code.of_instrs listed
  have whole := partition.no_break_heading fits (no_break_heading_of_parse read)
  have nonempty : listing ≠ [] := by
    obtain ⟨i, split⟩ := partition.exists_parts _ List.mem_cons_self
    have parts := partition.split
    dsimp only at split
    rw [split] at parts
    rw [parts]
    exact List.cons_ne_nil _ _
  obtain ⟨output, made, lines, again⟩ := Code.reread?_listing listed nonempty whole
  rw [partition.lines_eq fits] at lines
  obtain ⟨b, written, same⟩ := Code.exists_emitAll listed
  refine ⟨listing, _, _, output, listed, partition, ⟨d, addr, of, rfl, ?_⟩, made, lines, ?_,
    _, b, again, written, same⟩
  · have definitions : d.pending.toList.map Prod.fst = p.definitions := by
      rw [of.pending, List.zipIdx_map_fst]
    rw [← definitions]
    exact Definition.code_placed
  · rw [lines, partition.filter_isHeading]

theorem listing_faithful_sample : ∃ p listing top bodies output, parse sampleText = .ok p ∧
    p.violations = [] ∧
    p.compile (Registry.builtins Memory.channel).knows "sample" = .ok sampleCode ∧
    sampleCode.instrs = .ok listing ∧ sampleCode.Partition p listing top bodies ∧
    p.ListedAs top bodies ∧ sampleCode.listing = .ok output ∧
    (textLines output).filter isHeading = ["<main>:".toList, "twice/2:".toList] ∧
    ∃ parts b, reread? output = some parts ∧ Builder.empty.emitAll parts = .ok b ∧
      b.bytes = sampleCode.bytes := by
  obtain ⟨p, read, kept, _, compiled, _⟩ := exists_sample
  obtain ⟨listing, top, bodies, output, listed, partition, shape, made, _, headings, again⟩ :=
    listing_faithful read kept compiled
  obtain ⟨p', read', shown⟩ : ∃ p, parse sampleText = .ok p ∧
      p.definitions.map Definition.heading = ["twice/2:"] := exists_of_evaluation (by decide +kernel)
  cases read.symm.trans read'
  rw [shown] at headings
  exact ⟨p, listing, top, bodies, output, read, kept, compiled, listed, partition, shape, made,
    headings, again⟩

end Program

end Tally

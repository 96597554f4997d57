import Tally.Proofs.Grammar.Extents
import Tally.Proofs.Program.Accepted
import Tally.Proofs.Program.Registered
import Tally.Proofs.Program.Sizes
import Mathlib.Algebra.Group.Nat.Defs

namespace Tally

/-- Who is to blame: compiling itself, a primitive that is missing, a number that does not fit, or
the registry that was asked. -/
inductive CompileFault.Kind where
  | internal | primitive | range | registry
deriving DecidableEq

def CompileFault.kind : CompileFault → Kind
  | .lowering (.unknownPrimitive ..) => .primitive
  | .lowering (.registry _) => .registry
  | .label (.operand _) => .range
  | _ => .internal

def Prototype.missing (q : Prototype) : CompileFault :=
  .lowering (.unknownPrimitive q.primitive q.header.name.text q.header.word)

/-- What compiling comes to, by the first prototype whose primitive is not given. A number that does
not fit takes code or a text of more than `2 ^ 32` bytes or characters. -/
inductive Program.Comes (p : Program) (known : PrimitiveNames) (characters : Nat) :
    Except CompileFault Code → Prop where
  | code {c : Code} (given : p.firstRefused? known = none) (length : c.length = p.codeSize) :
    Comes p known characters (.ok c)
  | large {v : Nat} (given : p.firstRefused? known = none) (tooLarge : 2 ^ 32 ≤ v)
    (long : 2 ^ 32 ≤ p.codeSize ∨ 2 ^ 32 ≤ characters) :
    Comes p known characters (.error (.label (.operand (.count v))))
  | missing {q : Prototype} (first : p.firstRefused? known = some q)
    (answer : known q.primitive = .ok false) : Comes p known characters (.error q.missing)
  | failing {q : Prototype} {message : String} (first : p.firstRefused? known = some q)
    (answer : known q.primitive = .error message) :
    Comes p known characters (.error (.lowering (.registry message)))

namespace Program

namespace Comes

variable {p : Program} {known : PrimitiveNames} {characters : Nat}
  {outcome : Except CompileFault Code}

theorem kind_ne_internal {e : CompileFault} (comes : p.Comes known characters (.error e)) :
    e.kind ≠ .internal := by
  cases comes <;> nofun

theorem missing_iff (comes : p.Comes known characters outcome) (e : CompileFault) :
    outcome = .error e ∧ e.kind = .primitive ↔
      ∃ q, p.firstRefused? known = some q ∧ known q.primitive = .ok false ∧ e = q.missing := by
  constructor
  · rintro ⟨rfl, kind⟩
    cases comes with
    | missing first answer => exact ⟨_, first, answer, rfl⟩
    | large | failing => cases kind
  · rintro ⟨q, first, answer, rfl⟩
    cases comes with
    | code given | large given => cases given.symm.trans first
    | missing first' =>
      cases first'.symm.trans first
      exact ⟨rfl, rfl⟩
    | failing first' answer' =>
      cases first'.symm.trans first
      cases answer'.symm.trans answer

theorem code_or_refused (comes : p.Comes known characters outcome) (small : p.codeSize < 2 ^ 32)
    (short : characters < 2 ^ 32) :
    (∃ c, outcome = .ok c ∧ c.length = p.codeSize) ∨
      (∃ e, outcome = .error e ∧ e.kind = .primitive) ∨
      ∃ q message, p.firstRefused? known = some q ∧ known q.primitive = .error message ∧
        outcome = .error (.lowering (.registry message)) := by
  cases comes with
  | code given length => exact Or.inl ⟨_, rfl, length⟩
  | large given tooLarge long => omega
  | missing first answer => exact Or.inr (Or.inl ⟨_, rfl, rfl⟩)
  | failing first answer => exact Or.inr (Or.inr ⟨_, _, first, answer, rfl⟩)

end Comes

variable {known : PrimitiveNames} {filename text : String} {p : Program} {q : Prototype}

theorem compile_of_refused (kept : p.violations = []) (first : p.firstRefused? known = some q) :
    p.compile known filename = .error (.lowering (q.refusal known)) := by
  have failed : p.assembly known = .error (q.refusal known) := by
    unfold assembly
    rw [Declarations.ofProgram_of_refused kept first]
    rfl
  unfold compile
  rw [failed]

theorem mentions_bound (read : parse text = .ok p) (kept : p.violations = []) {d : Declarations}
    (of : d.Of p) {v : Nat} (mentions : (p.assembled d).Mentions v) :
    v ≤ p.codeSize ∨ v < text.length ∨ 15 * v ≤ 5 * text.length + 3 * p.codeSize := by
  rcases mentions with offset | ⟨i, member, count⟩
  · rw [p.size_assembled of kept] at offset
    exact Or.inl offset
  · have few : ∀ f ∈ p.definitions, f.header.params.length ≤ text.length / 3 := by
      intro f inside
      have params := params_le_of_parse read inside
      omega
    have natives := prototypes_le_of_parse read
    rcases p.counts_assembled of few i member v count with native | small
    · exact Or.inr (Or.inl (Nat.lt_of_lt_of_le native natives))
    · right
      right
      omega

/-- Where all primitives are given there is code, or the code or the text is too long for 32-bit
numbers. -/
theorem exists_linking_of_parse (read : parse text = .ok p) (kept : p.violations = [])
    (knows : ∀ q ∈ p.prototypes, known q.primitive = .ok true) (filename : String) :
    ∃ d : Declarations, d.Of p ∧
      ((∃ v : Nat, p.compile known filename = .error (.label (.operand (.count v))) ∧ 2 ^ 32 ≤ v ∧
        (2 ^ 32 ≤ p.codeSize ∨ 2 ^ 32 ≤ text.length)) ∨
      ∃ addr c, p.compile known filename = .ok c ∧ (p.assembled d).LinkedTo addr c) := by
  obtain ⟨d, of, ⟨v, failed, tooLarge, mentions⟩ | linked⟩ :=
    p.exists_linking kept (literalsFit_of_parse read) knows filename
  · have bound := mentions_bound read kept of mentions
    have modulus : LittleEndian.modulus 4 = 2 ^ 32 := rfl
    exact ⟨d, of, Or.inl ⟨v, failed, tooLarge, by omega⟩⟩
  · exact ⟨d, of, Or.inr linked⟩

theorem compile_comes_of_given (read : parse text = .ok p) (kept : p.violations = [])
    (given : p.firstRefused? known = none) :
    p.Comes known text.length (p.compile known filename) := by
  obtain ⟨d, of, ⟨v, failed, tooLarge, long⟩ | ⟨addr, c, compiled, linked⟩⟩ :=
    exists_linking_of_parse read kept (known_of_firstRefused?_eq_none given) filename
  · rw [failed]
    exact Comes.large given tooLarge long
  · rw [compiled]
    exact Comes.code given (linked.length.trans (p.size_assembled of kept))

theorem compile_comes (read : parse text = .ok p) (kept : p.violations = []) :
    p.Comes known text.length (p.compile known filename) := by
  cases first : p.firstRefused? known with
  | none => exact compile_comes_of_given read kept first
  | some q =>
    rw [compile_of_refused kept first, Prototype.refusal]
    rcases p.answer_of_firstRefused? first with missing | ⟨message, failing⟩
    · rw [missing]
      exact Comes.missing first missing
    · rw [failing]
      exact Comes.failing first failing

/-- A program that was read and keeps the rules meets no internal fault. It is refused for a missing
primitive exactly if the first prototype whose primitive is not given has a missing one. Otherwise
there is code, where this is below `2 ^ 32` bytes, or asking for a primitive failed by itself. The
size of the code does not bound the numbers of parameters and prototypes, but the length of the
text does; no string is as long as the second bound. -/
theorem compile_outcome (read : parse text = .ok p) (kept : p.violations = [])
    (known : PrimitiveNames) (filename : String) :
    let outcome := ((Compiler.new known filename).compile p).1
    (∀ e, outcome = .error e → e.kind ≠ .internal) ∧
    (∀ e, outcome = .error e ∧ e.kind = .primitive ↔
      ∃ q, p.firstRefused? known = some q ∧ known q.primitive = .ok false ∧ e = q.missing) ∧
    (p.codeSize < 2 ^ 32 → text.length < 2 ^ 32 →
      (∃ c, outcome = .ok c ∧ c.length = p.codeSize) ∨
      (∃ e, outcome = .error e ∧ e.kind = .primitive) ∨
      ∃ q message, p.firstRefused? known = some q ∧ known q.primitive = .error message ∧
        outcome = .error (.lowering (.registry message))) := by
  intro outcome
  have comes : p.Comes known text.length outcome := compile_comes read kept
  refine ⟨?_, comes.missing_iff, comes.code_or_refused⟩
  intro e failed
  rw [failed] at comes
  exact comes.kind_ne_internal

theorem compile_outcome_sample : ∃ p, parse sampleText = .ok p ∧ p.violations = [] ∧
    (∃ c, ((Compiler.new (Registry.builtins Memory.channel).knows "sample").compile p).1 = .ok c ∧
      c.length = 89) ∧
    ((Compiler.new (Registry.empty : Registry Memory).knows "sample").compile p).1 =
      .error (.lowering (.unknownPrimitive "print_int" "print" ⟨0, 0, 0⟩)) := by
  obtain ⟨p, read, kept, _⟩ := exists_sample
  have facts : (match parse sampleText with
      | .ok p => decide (p.codeSize = 89 ∧
          p.firstRefused? (Registry.builtins Memory.channel).knows = none ∧
          (p.firstRefused? (Registry.empty : Registry Memory).knows).map Prototype.missing =
            some (.lowering (.unknownPrimitive "print_int" "print" ⟨0, 0, 0⟩)))
      | .error _ => false) = true := by
    decide +kernel
  rw [read] at facts
  obtain ⟨size, given, refused⟩ := of_decide_eq_true facts
  obtain ⟨q, first, same⟩ := Option.map_eq_some_iff.mp refused
  have short : sampleText.length < 2 ^ 32 := by decide +kernel
  refine ⟨p, read, kept, ?_, ?_⟩
  · obtain ⟨_, missing, settled⟩ :=
      compile_outcome read kept (Registry.builtins Memory.channel).knows "sample"
    rcases settled (by omega) short with ⟨c, compiled, length⟩ | ⟨e, failed⟩ | ⟨q', _, first', _⟩
    · exact ⟨c, compiled, length.trans size⟩
    · obtain ⟨q', first', _⟩ := (missing e).mp failed
      cases given.symm.trans first'
    · cases given.symm.trans first'
  · obtain ⟨_, missing, _⟩ := compile_outcome read kept (Registry.empty : Registry Memory).knows "sample"
    exact ((missing _).mpr ⟨q, first, rfl, same.symm⟩).1

end Program

end Tally

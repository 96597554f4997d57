import Tally.Channel
import Tally.Program.Meaning
import Tally.Proofs.Effects
import Tally.Run

namespace Tally

theorem compileText_eq_ok_iff {known : PrimitiveNames} {filename text : String} {c : Code} :
    compileText known true filename text = .ok c ↔ ∃ p, Program.parse text = .ok p ∧
      p.violations = [] ∧ p.compile known filename = .ok c := by
  unfold compileText
  cases read : Program.parse text with
  | error r =>
    constructor
    · intro failed
      cases failed
    · intro accepted
      obtain ⟨_, impossible, _⟩ := accepted
      cases impossible
  | ok p =>
    have checked : (do
        p.check
        (p.compile known filename).mapError .compilation : Except Obstacle Code) = .ok c ↔
        p.violations = [] ∧ p.compile known filename = .ok c := by
      unfold Program.check
      cases p.violations with
      | cons first others => simp [bind, Except.bind]
      | nil =>
        cases p.compile known filename with
        | error e =>
          constructor
          · intro failed
            cases failed
          · intro kept
            cases kept.2
        | ok c' =>
          constructor
          · intro same
            cases same
            exact ⟨rfl, rfl⟩
          · intro kept
            cases kept.2
            rfl
    refine checked.trans ?_
    constructor
    · exact fun accepted => ⟨p, rfl, accepted⟩
    · intro accepted
      obtain ⟨p', same, kept⟩ := accepted
      cases same
      exact kept

/-- Every prototype stands for a primitive over memory, with the number of its parameters. -/
def Program.BindsBuiltins (p : Program) : Prop :=
  ∀ q ∈ p.prototypes, (q.primitive = "print_int" ∧ q.header.params.length = 1) ∨
    (q.primitive = "read_int" ∧ q.header.params.length = 0)

instance (p : Program) : Decidable p.BindsBuiltins :=
  inferInstanceAs (Decidable (∀ q ∈ p.prototypes, _ ∨ _))

theorem Program.BindsBuiltins.knows {p : Program} (binds : p.BindsBuiltins) {q : Prototype}
    (member : q ∈ p.prototypes) :
    (Registry.builtins Memory.channel).knows q.primitive = .ok true := by
  rcases binds q member with ⟨primitive, _⟩ | ⟨primitive, _⟩
  · rw [primitive]
    rfl
  · rw [primitive]
    rfl

deriving instance DecidableEq for Code

def sampleText : String := "func print(x: int): int = \"print_int\"
func twice(f: fn, x: int): int \x7b while (x) \x7b return f(f(x)) \x7d return x \x7d
twice(print, 3)"

def sampleCode : Code where
  bytes := #[10, 3, 0, 0, 0, 0, 0, 0, 0, 1, 0, 0, 0, 0, 0, 26, 0, 0, 0, 4, 2, 0, 0, 0, 3, 9,
    2, 2, 0, 0, 0, 7, 75, 0, 0, 0, 2, 2, 0, 0, 0, 2, 2, 0, 0, 0, 4, 1, 0, 0, 0, 2, 2, 0, 0, 0,
    4, 1, 0, 0, 0, 6, 0, 0, 0, 0, 2, 0, 0, 0, 8, 26, 0, 0, 0, 2, 2, 0, 0, 0, 6, 0, 0, 0, 0,
    2, 0, 0, 0]
  natives := #[⟨"print", "print_int", 1⟩]
  functions := [⟨"twice", 26, 2⟩]
  filename := "sample"

theorem compileText_sample : compileText (Registry.builtins Memory.channel).knows true "sample"
    sampleText = .ok sampleCode := by
  obtain ⟨c, compiled, same⟩ : ∃ c, compileText (Registry.builtins Memory.channel).knows true
      "sample" sampleText = .ok c ∧ c = sampleCode := exists_of_evaluation (by decide +kernel)
  rw [compiled, same]

theorem exists_sample : ∃ p, Program.parse sampleText = .ok p ∧ p.violations = [] ∧
    p.BindsBuiltins ∧ p.compile (Registry.builtins Memory.channel).knows "sample" = .ok sampleCode ∧
      p.outcome? 4 [] = some (.stopped, [3, 3]) := by
  obtain ⟨p, read, kept, compiled⟩ := compileText_eq_ok_iff.mp compileText_sample
  obtain ⟨p', read', binds, outcome⟩ : ∃ p, Program.parse sampleText = .ok p ∧ p.BindsBuiltins ∧
      p.outcome? 4 [] = some (.stopped, [3, 3]) := exists_of_evaluation (by decide +kernel)
  cases read.symm.trans read'
  exact ⟨p, read, kept, binds, compiled, outcome⟩

end Tally

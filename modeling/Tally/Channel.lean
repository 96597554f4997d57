import Tally.Machine.Routine

namespace Tally

structure Channel (σ : Type) where
  read : σ → Except String Int × σ
  write : σ → Int → σ

def printInt {σ : Type} (channel : Channel σ) : Routine σ :=
  .popInt fun z => .host (fun s => (.ok 0, channel.write s z.toInt)) fun _ => .push (.int z) .done

def readInt {σ : Type} (channel : Channel σ) : Routine σ :=
  .host channel.read fun z => .push (.ofInt z) .done

namespace Registry

variable {σ : Type}

def empty : Registry σ := fun _ => .ok none

def add (registry : Registry σ) (name : String) (routine : Routine σ) : Registry σ :=
  fun asked => if asked = name then .ok (some routine) else registry asked

def builtins (channel : Channel σ) : Registry σ :=
  (empty.add "print_int" (printInt channel)).add "read_int" (readInt channel)

end Registry

/-- Numbers in memory: those still to be read, and those written, the last one first. -/
structure Memory where
  inputs : List Int
  written : List Int

namespace Memory

def ofInputs (inputs : List Int) : Memory := ⟨inputs, []⟩

def output (m : Memory) : List Int := m.written.reverse

/-- After the last number every read gives zero. -/
def read (m : Memory) : Int × Memory :=
  match m.inputs with
  | [] => (0, m)
  | z :: zs => (z, { m with inputs := zs })

def write (m : Memory) (z : Int) : Memory := { m with written := z :: m.written }

theorem output_prefix_write (m : Memory) (z : Int) : m.output <+: (m.write z).output := by
  unfold output write
  rw [List.reverse_cons]
  exact List.prefix_append _ _

theorem output_read (m : Memory) : m.read.2.output = m.output := by
  obtain ⟨inputs, written⟩ := m
  cases inputs <;> rfl

def channel : Channel Memory where
  read m := (.ok m.read.1, m.read.2)
  write := write

end Memory

end Tally

import Tally.Proofs.Code.Sites
import Tally.Proofs.Machine.Steps

namespace Tally

/-- Activations inside one another. Each has its own values on top of the stack, below these the place
to return to, and below this its arguments. -/
inductive Activations where
  | top (temps : List Value)
  | called (temps : List Value) (back : Nat) (args : List Value) (below : Activations)

namespace Activations

def values : Activations → List Value
  | top temps => temps
  | called temps back args below => temps ++ .address back :: (args ++ below.values)

def arity? : Activations → Option Nat
  | top _ => none
  | called _ _ args _ => some args.length

def temps : Activations → List Value
  | top temps => temps
  | called temps .. => temps

def rest : Activations → List Value
  | top _ => []
  | called _ back args below => .address back :: (args ++ below.values)

def replace (a : Activations) (temps : List Value) : Activations :=
  match a with
  | top _ => top temps
  | called _ back args below => called temps back args below

theorem values_eq (a : Activations) : a.values = a.temps ++ a.rest := by
  cases a with
  | top temps => exact (List.append_nil temps).symm
  | called temps back args below => rfl

@[simp] theorem arity?_replace (a : Activations) (temps : List Value) :
    (a.replace temps).arity? = a.arity? := by
  cases a <;> rfl

@[simp] theorem temps_replace (a : Activations) (temps : List Value) :
    (a.replace temps).temps = temps := by
  cases a <;> rfl

@[simp] theorem rest_replace (a : Activations) (temps : List Value) :
    (a.replace temps).rest = a.rest := by
  cases a <;> rfl

theorem values_replace (a : Activations) (temps : List Value) :
    (a.replace temps).values = temps ++ a.rest := by
  rw [values_eq, temps_replace, rest_replace]

end Activations

/-- The natives that are expected over memory. -/
def Native.Builtin (n : Native) : Prop :=
  (n.primitive = "print_int" ∧ n.arity = (1 : Nat)) ∨ (n.primitive = "read_int" ∧ n.arity = (0 : Nat))

/-- A value that the program can compute with: no place to return to. -/
def Value.Plain (k : Plan) : Value → Prop
  | int _ => True
  | native n => n.Builtin
  | address a => ∃ (entry n : Nat) (f : EntryPoint), a = entry ∧
      k.code.functionAt? (entry : Number) = some f ∧ f.arity = n ∧ k.Site entry (some n) 0

structure Plan.Sound (k : Plan) : Prop where
  start : k.Site 0 none 0
  functions : ∀ l, l < k.functions → (Value.address (k.addr l)).Plain k
  natives : ∀ i, i < k.natives → ∃ n, k.code.natives[i]? = some n ∧ n.Builtin

def Activations.Sound (k : Plan) : Activations → Prop
  | top temps => ∀ v ∈ temps, v.Plain k
  | called temps back args below => (∀ v ∈ temps, v.Plain k) ∧ (∀ v ∈ args, v.Plain k) ∧
      k.Site back below.arity? (below.temps.length + 1) ∧ below.Sound k

/-- Control stands at a place that fits the activations. -/
structure Plan.Stands (k : Plan) (capacity pc : Nat) (a : Activations) : Prop where
  site : k.Site pc a.arity? a.temps.length
  sound : a.Sound k
  low : a.values.length ≤ capacity

/-- How an instruction at `pc` changes the activations, and where it leads. -/
inductive Activations.Moves (pc : Nat) (i : Instr Nat) : Activations → Nat → Activations → Prop
  | within {a : Activations} {temps : List Value} {pc' : Nat}
      (counted : i.depthAfter a.arity? a.temps.length = some temps.length)
      (stays : ∀ depth args, i ≠ .ret depth args)
      (enters : ∀ n, i = .call n → ∀ v, a.temps.head? = some v → v.kind ≠ .address) :
      Moves pc i a pc' (a.replace temps)
  | call {a : Activations} {temps args : List Value} {entry : Nat} (called : i = .call args.length)
      (split : a.temps = .address entry :: (args ++ temps)) :
      Moves pc i a entry (.called [] (pc + Opcode.call.size) args (a.replace temps))
  | ret {v : Value} {back : Nat} {args : List Value} {below : Activations}
      (returned : i = .ret 0 args.length) :
      Moves pc i (.called [v] back args below) back (below.replace (v :: below.temps))

/-- The faults that a program can cause by what it computes. -/
def Fault.OfProgram : Fault → Prop
  | stackOverflow | expectedInt _ | operands .. | notCallable _ | functionArity .. | nativeArity .. =>
    True
  | _ => False

/-- How code of a program ends: with an empty stack, or with a fault of the program. -/
def Machine.Finished {σ : Type} (why : Halt) (m : Machine σ) : Prop :=
  (why = .stopped ∧ m.stack.height = 0) ∨ ∃ f pc, why = .fault f pc ∧ f.OfProgram

namespace Activations

variable {k : Plan}

theorem Sound.temps {a : Activations} (sound : a.Sound k) : ∀ v ∈ a.temps, v.Plain k := by
  cases a with
  | top temps => exact sound
  | called temps back args below => exact sound.1

theorem Sound.replace {a : Activations} (sound : a.Sound k) {temps : List Value}
    (plain : ∀ v ∈ temps, v.Plain k) : (a.replace temps).Sound k := by
  cases a with
  | top _ => exact plain
  | called _ back args below => exact ⟨plain, sound.2⟩

theorem exists_cons {a : Activations} (some_ : 1 ≤ a.temps.length) :
    ∃ v temps, a.temps = v :: temps ∧ a.values = v :: (temps ++ a.rest) := by
  obtain ⟨v, temps, split⟩ := List.exists_cons_of_length_pos some_
  refine ⟨v, temps, split, ?_⟩
  rw [a.values_eq, split]
  rfl

theorem getElem?_argument {temps args : List Value} {depth : Nat} (back : Nat) (below : Activations)
    (range : temps.length + 1 ≤ depth ∧ depth ≤ temps.length + args.length) :
    ∃ v, (called temps back args below).values[depth]? = some v ∧ v ∈ args := by
  obtain ⟨j, rfl⟩ := Nat.exists_eq_add_of_le range.1
  have inside : j < args.length := by omega
  have past : temps.length + 1 + j - temps.length = j + 1 := by omega
  refine ⟨args[j], ?_, List.getElem_mem inside⟩
  rw [values, List.getElem?_append_right (by omega), past, List.getElem?_cons_succ,
    List.getElem?_append_left inside]
  exact List.getElem?_eq_getElem inside

end Activations

theorem Instr.depthAfter_map {α β : Type} (f : α → β) (arity? : Option Nat) (d : Nat) (i : Instr α) :
    (i.map f).depthAfter arity? d = i.depthAfter arity? d := by
  cases i <;> rfl

end Tally

import Tally.Assembly.Labels
import Mathlib.Logic.Function.Basic

namespace Tally

inductive Act where
  | create
  | place (label : Number)
  | reference (label : Number)
  | op (code : Nat)
  | count (value : Number)
  | number (value : Int)

/-- A count operand that was written for a label. -/
structure Slot where
  offset : Nat
  label : Label

def Slot.Covers (s : Slot) (i : Nat) : Prop := s.offset ≤ i ∧ i < s.offset + 4

namespace Act

def perform : Act → Linking Unit
  | create => do let _ ← Linking.create
  | place label => do let _ ← Linking.place (← Linking.named label)
  | reference label => do Linking.reference (← Linking.named label)
  | op code => do let _ ← Linking.emitOp code
  | count value => do let _ ← Linking.emitCount value
  | number value => do let _ ← Linking.emitNumber value

def placed? : Act → Option Label
  | place label => label.toNat?
  | _ => none

def referenced? : Act → Option Label
  | reference label => label.toNat?
  | _ => none

end Act

structure Log where
  linker : Linker
  slots : List Slot
  places : Label → Option Nat

namespace Log

def blank : Log := ⟨⟨.empty, .empty⟩, [], fun _ => none⟩

def offset (log : Log) : Nat := log.linker.builder.offset

def code (log : Log) : Code := log.linker.builder.toCode #[] [] ""

/-- What is known after an act. Of one that is refused only its effects are. -/
def after (log : Log) (a : Act) : Log :=
  match a.perform log.linker with
  | .error _ k => { log with linker := k }
  | .ok _ k => {
      linker := k
      slots := log.slots ++ a.referenced?.toList.map (⟨log.offset, ·⟩)
      places := match a.placed? with
        | some l => Function.update log.places l (some log.offset)
        | none => log.places }

def ofActs (acts : List Act) : Log := acts.foldl after blank

end Log

end Tally

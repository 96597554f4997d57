import Tally.Value

namespace Tally

structure Stack where
  toList : List Value
  height : Nat
  height_eq : height = toList.length

namespace Stack

@[ext] theorem ext {s t : Stack} (h : s.toList = t.toList) : s = t := by
  obtain ⟨l, n, hn⟩ := s
  obtain ⟨l', n', hn'⟩ := t
  cases h
  subst hn hn'
  rfl

def empty : Stack := ⟨[], 0, rfl⟩

def push (s : Stack) (v : Value) : Stack :=
  ⟨v :: s.toList, s.height + 1, by simp [s.height_eq]⟩

def top? (s : Stack) : Option Value := s.toList.head?

def peek? (s : Stack) (depth : Nat) : Option Value := s.toList[depth]?

def drop (s : Stack) (n : Nat) : Stack :=
  ⟨s.toList.drop n, s.height - n, by simp [s.height_eq]⟩

def pop? (s : Stack) : Option (Value × Stack) := s.top?.map fun v => (v, s.drop 1)

@[simp] theorem toList_push (s : Stack) (v : Value) : (s.push v).toList = v :: s.toList := rfl

@[simp] theorem toList_drop (s : Stack) (n : Nat) : (s.drop n).toList = s.toList.drop n := rfl

end Stack

end Tally

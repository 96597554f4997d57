namespace Tally

abbrev Label := Nat

inductive Binding where
  | function (entry : Label)
  | native (index : Nat) (name : String)
  | argument (index : Nat)
deriving DecidableEq, Repr

inductive Scope.Kind where
  | global | function | block
deriving DecidableEq, Repr

def Scope.Kind.text : Scope.Kind → String
  | global => "global"
  | function => "function"
  | block => "block"

inductive ScopeFault where
  | defineIn (kind : Scope.Kind) (name : String)
  | argumentAtTop (name : String)
  | alreadyBound (name : String)
  | unresolved (name : String)
deriving DecidableEq, Repr

def ScopeFault.message : ScopeFault → String
  | defineIn kind name => s!"cannot define '{name}' in a {kind.text} scope"
  | argumentAtTop name => s!"argument binding for '{name}' in the global scope"
  | alreadyBound name => s!"'{name}' is already bound"
  | unresolved name => s!"unresolved name '{name}'"

abbrev Bindings := List (String × Binding)

inductive Frame where
  | function (params : List String)
  | block
deriving DecidableEq, Repr

/-- The frames around a place, the innermost first, over the bindings at the top. -/
structure Scope where
  globals : Bindings
  frames : List Frame

/-- The index of a name in a list; of several, the last one. -/
def lastIndex? (name : String) : List String → Option Nat
  | [] => none
  | p :: ps =>
    match lastIndex? name ps with
    | some i => some (i + 1)
    | none => if p = name then some 0 else none

namespace Scope

def empty : Scope := ⟨[], []⟩

def enterFunction (s : Scope) (params : List String) : Scope :=
  { s with frames := .function params :: s.frames }

def enterBlock (s : Scope) : Scope := { s with frames := .block :: s.frames }

def kind (s : Scope) : Scope.Kind :=
  match s.frames with
  | [] => .global
  | .function _ :: _ => .function
  | .block :: _ => .block

def define (s : Scope) (name : String) (binding : Binding) : Except ScopeFault Scope :=
  match s.kind, binding with
  | .global, .argument _ => .error (.argumentAtTop name)
  | .global, _ =>
    if (s.globals.lookup name).isSome then .error (.alreadyBound name)
    else .ok { s with globals := (name, binding) :: s.globals }
  | kind, _ => .error (.defineIn kind name)

def argument? (name : String) : List Frame → Option Nat
  | [] => none
  | .function params :: frames => (lastIndex? name params).or (argument? name frames)
  | .block :: frames => argument? name frames

def resolve (s : Scope) (name : String) : Except ScopeFault Binding :=
  match argument? name s.frames with
  | some index => .ok (.argument index)
  | none =>
    match s.globals.lookup name with
    | some binding => .ok binding
    | none => .error (.unresolved name)

def paramCount (s : Scope) : Nat := go s.frames
where
  go : List Frame → Nat
    | [] => 0
    | .function params :: _ => params.length
    | .block :: frames => go frames

end Scope

end Tally

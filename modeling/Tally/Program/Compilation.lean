import Tally.Program.Lowering

namespace Tally

inductive CompileFault where
  | lowering (e : LoweringFault)
  | label (e : LabelFault)
  | used
deriving DecidableEq

namespace LoweringFault

def message : LoweringFault → String
  | unknownPrimitive primitive name position =>
    s!"unknown primitive '{primitive}' for prototype '{name}'" ++ position.suffix
  | registry message => message
  | scope e => e.message
  | depthAtTop depth => s!"top level left {depth} value(s) on the stack"
  | depthOfFunction name depth => s!"function '{name}' ended at stack depth {depth}"
  | depthOfBlock before after => s!"block changed stack depth from {before} to {after}"

end LoweringFault

def CompileFault.message : CompileFault → String
  | lowering e => e.message
  | label e => e.message
  | used => "compiler instance already used"

def Program.compile (known : PrimitiveNames) (filename : String) (p : Program) :
    Except CompileFault Code :=
  match p.assembly known with
  | .error e => .error (.lowering e)
  | .ok a =>
    match a.link filename with
    | .error e => .error (.label e)
    | .ok code => .ok code

/-- A compiler is good for one program. -/
structure Compiler where
  known : PrimitiveNames
  filename : String
  used : Bool

namespace Compiler

def new (known : PrimitiveNames) (filename : String) : Compiler := ⟨known, filename, false⟩

def compile (c : Compiler) (p : Program) : Except CompileFault Code × Compiler :=
  if c.used then (.error .used, c)
  else (p.compile c.known c.filename, { c with used := true })

end Compiler

end Tally

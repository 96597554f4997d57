import Tally.Machine
import Tally.Program.Compilation
import Tally.Program.Parsing
import Tally.Program.Rules
import Tally.Text.Utf8

namespace Tally

inductive Phase where
  | reading | parsing | checking | compiling | running
deriving DecidableEq, Repr

def Phase.text : Phase → String
  | reading => "Syntax"
  | parsing => "Parse"
  | checking => "Verification"
  | compiling => "Compile"
  | running => "Runtime"

inductive Obstacle where
  | rejection (r : Rejection)
  | violation (first : Violation) (others : List Violation)
  | compilation (e : CompileFault)

def Rejection.message : Rejection → String
  | unreadableStart e => e.message
  | unreadable e _ => e.message
  | malformed first _ => first.message

namespace Obstacle

def phase : Obstacle → Phase
  | rejection (.unreadableStart _) => .reading
  | rejection (.unreadable ..) => .reading
  | rejection (.malformed ..) => .parsing
  | violation .. => .checking
  | compilation _ => .compiling

def message : Obstacle → String
  | rejection r => r.message
  | violation first _ => first.message
  | compilation e => e.message

end Obstacle

def Program.check (p : Program) : Except Obstacle Unit :=
  match p.violations with
  | [] => .ok ()
  | first :: others => .error (.violation first others)

/-- The code of a text; the rules are checked if `checked` says so. -/
def compileText (known : PrimitiveNames) (checked : Bool) (filename text : String) :
    Except Obstacle Code := do
  let p ← (Program.parse text).mapError .rejection
  if checked then p.check
  (p.compile known filename).mapError .compilation

inductive Cause where
  | obstacle (o : Obstacle)
  | halt (h : Halt)

def Halt.message : Halt → String
  | stopped => ""
  | fault f _ => f.message
  | unreadable e => e.message
  | foreign message => message
  | exhausted => "step limit reached"

structure Failure where
  phase : Phase
  filename : String
  cause : Cause

def Cause.message : Cause → String
  | obstacle o => o.message
  | halt h => h.message

def Failure.message (f : Failure) : String :=
  s!"{f.phase.text} error in {f.filename}: {f.cause.message}"

/-- What a run of a text leaves behind, a failed one as well. -/
structure RunReport (σ τ : Type) where
  result : Except Failure (Code × Nat)
  seen : τ
  host : σ

def runText {σ τ : Type} (registry : Registry σ) (capacity limit : Nat)
    (observe : τ → Event → τ) (seen : τ) (host : σ) (filename text : String) : RunReport σ τ :=
  match compileText (Registry.knows registry) true filename text with
  | .error o => ⟨.error ⟨o.phase, filename, .obstacle o⟩, seen, host⟩
  | .ok code =>
    let (halt, seen, m) := Machine.run ⟨code, registry, capacity⟩ observe limit seen (.start host)
    match halt with
    | .stopped => ⟨.ok (code, m.stack.height), seen, m.host⟩
    | halt => ⟨.error ⟨.running, filename, .halt halt⟩, seen, m.host⟩

inductive FileFault where
  | missing (path : String)
  | directory
  | notDirectory (path : String)
  | nameTooLong (path : String)
deriving DecidableEq, Repr

def FileFault.message : FileFault → String
  | missing path => s!"ENOENT: no such file or directory, open '{path}'"
  | directory => "EISDIR: illegal operation on a directory, read"
  | notDirectory path => s!"ENOTDIR: not a directory, open '{path}'"
  | nameTooLong path => s!"ENAMETOOLONG: name too long, open '{path}'"

abbrev Files := String → Except FileFault (List UInt8)

def Files.text (files : Files) (path : String) : Except FileFault String :=
  (files path).map fun bytes => String.ofList (Utf8.decode bytes)

/-- Runs the text of a file. Its path is made absolute by `resolve` to read it, and names it as it
stands. -/
def runFile {σ τ : Type} (registry : Registry σ) (capacity limit : Nat)
    (observe : τ → Event → τ) (seen : τ) (host : σ) (files : Files) (resolve : String → String)
    (filename? : Option String) (path : String) : Except String (RunReport σ τ) :=
  match files.text (resolve path) with
  | .error e => .error s!"cannot read {path}: {e.message}"
  | .ok text =>
    .ok (runText registry capacity limit observe seen host (filename?.getD path) text)

end Tally

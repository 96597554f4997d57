import Tally.Channel.Console
import Tally.Code.Listing
import Tally.Run

namespace Tally

namespace CommandLine

inductive Source where
  | argument (text : String)
  | file (path : String)
deriving DecidableEq, Repr

structure Request where
  source : Source
  listing : Bool
  trace : Bool
deriving DecidableEq, Repr

inductive Command where
  | help
  | version
  | nothing
  | noEvalText
  | unknownOption (arg : String)
  | unexpected (arg : String)
  | program (r : Request)
deriving DecidableEq, Repr

structure Options where
  text : Option String
  file : Option String
  listing : Bool
  trace : Bool

def Options.none : Options := ⟨.none, .none, false, false⟩

/-- A text given as an argument goes before a file. -/
def Options.command (o : Options) : Command :=
  match o.text, o.file with
  | some text, _ => .program ⟨.argument text, o.listing, o.trace⟩
  | .none, some path => .program ⟨.file path, o.listing, o.trace⟩
  | .none, .none => .nothing

def Options.read (o : Options) : List String → Command
  | [] => o.command
  | arg :: args =>
    if arg = "-h" ∨ arg = "--help" then .help
    else if arg = "-v" ∨ arg = "--version" then .version
    else if arg = "-e" ∨ arg = "--eval" then
      match args with
      | [] => .noEvalText
      | text :: args => Options.read { o with text := some text } args
    else if arg = "-d" ∨ arg = "--disasm" then Options.read { o with listing := true } args
    else if arg = "-t" ∨ arg = "--trace" then Options.read { o with trace := true } args
    else if arg.startsWith "-" then .unknownOption arg
    else if o.file.isNone then Options.read { o with file := some arg } args
    else .unexpected arg

def Command.ofArgs (args : List String) : Command := Options.none.read args

def versionNumber : String := "0.1.0"

def usage : String := String.intercalate "\n"
  ["",
   "Tally v" ++ versionNumber ++ " - a tiny stack-machine language",
   "",
   "Usage:",
   "  tally [options] <file>",
   "",
   "Options:",
   "  -h, --help      Show this help message",
   "  -v, --version   Show version",
   "  -e, --eval      Run code from the command line",
   "  -d, --disasm    Print the compiled bytecode instead of running it",
   "  -t, --trace     Print each executed instruction to stderr",
   "",
   "Examples:",
   "  tally program.tly",
   "  tally -e 'func p(x: int): int = \"print_int\"  p(1 + 2)'",
   "  tally -d program.tly",
   ""]

structure Answer where
  status : Nat
  out : List String
  err : List String

def Answer.outText (a : Answer) : String := String.join (a.out.map (· ++ "\n"))

def Answer.errText (a : Answer) : String := String.join (a.err.map (· ++ "\n"))

def errorLine (message : String) : String := "Error: " ++ message

def traceLine (e : Event) : String :=
  rightAligned 5 (toString e.pc) ++ "  " ++ leftAligned 10 e.op.name ++ " [" ++
    toString e.height ++ "]"

def registry : Registry Console := Registry.builtins Console.channel

def Request.text (r : Request) (files : Files) : Except FileFault (String × String) :=
  match r.source with
  | .argument text => .ok ("<eval>", text)
  | .file path => (files.text path).map fun text => (path, text)

structure Job where
  filename : String
  code : Code
  trace : Bool

inductive Reaction where
  | answer (a : Answer)
  | job (j : Job)

def listingAnswer (code : Code) : Answer :=
  match code.listing with
  | .ok listing => ⟨0, [listing], []⟩
  | .error e => ⟨1, [], [errorLine e.message]⟩

def Request.reaction (r : Request) (files : Files) : Reaction :=
  match r.text files with
  | .error e => .answer ⟨1, [], [errorLine e.message]⟩
  | .ok (filename, text) =>
    match compileText (Registry.knows registry) true filename text with
    | .error o => .answer ⟨1, [], [errorLine (Failure.message ⟨o.phase, filename, .obstacle o⟩)]⟩
    | .ok code =>
      if r.listing then .answer (listingAnswer code) else .job ⟨filename, code, r.trace⟩

def Command.reaction (files : Files) : Command → Reaction
  | help => .answer ⟨0, [usage], []⟩
  | version => .answer ⟨0, ["Tally " ++ versionNumber], []⟩
  | nothing => .answer ⟨1, [usage], []⟩
  | noEvalText => .answer ⟨1, [], [errorLine "-e requires an argument"]⟩
  | unknownOption arg => .answer ⟨1, [usage], [errorLine ("Unknown option: " ++ arg)]⟩
  | unexpected arg => .answer ⟨1, [], [errorLine ("Unexpected argument: " ++ arg)]⟩
  | program r => r.reaction files

namespace Job

def readsInput (j : Job) : Bool := j.code.natives.any fun n => n.primitive = "read_int"

def start (input : List Delivery) : Machine Console := .start (.ofDeliveries input)

def observe (j : Job) (lines : List String) (e : Event) : List String :=
  if j.trace then traceLine e :: lines else lines

/-- What the next `limit` instructions write, and the machine that goes on after them, if the
program is not at its end. -/
def burst (j : Job) (limit : Nat) (m : Machine Console) : Answer × Option (Machine Console) :=
  let (halt, seen, m) := Machine.run ⟨j.code, registry, defaultCapacity⟩ j.observe limit [] m
  let out := m.host.output
  let seen := seen.reverse
  match halt with
  | .stopped => (⟨0, out, seen⟩, none)
  | .exhausted => (⟨0, out, seen⟩, some { m with host := { m.host with lines := [] } })
  | halt => (⟨1, out, seen ++ [errorLine (Failure.message ⟨.running, j.filename, .halt halt⟩)]⟩, none)

end Job

end CommandLine

end Tally

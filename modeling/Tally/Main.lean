import Tally.CommandLine

namespace Tally.CommandLine

/-- A path through a file fails when it is opened, and a directory when it is read. -/
def readPath (path : String) : IO (Except FileFault (List UInt8)) := do
  try
    return .ok (← IO.FS.readBinFile path).toList
  catch
    | .inappropriateType (some _) .. => return .error (.notDirectory path)
    | .inappropriateType none .. => return .error .directory
    | .invalidArgument .. => return .error (.nameTooLong path)
    | _ => return .error (.missing path)

def readSource : Command → IO (Except FileFault (List UInt8))
  | .program ⟨.file path, _, _⟩ => readPath path
  | _ => return .ok []

def writeAnswer (a : Answer) : IO Unit := do
  let out ← IO.getStdout
  let err ← IO.getStderr
  out.putStr a.outText
  out.flush
  err.putStr a.errText
  err.flush

partial def readRest (input : IO.FS.Stream) (before : List UInt8) : IO (List UInt8) := do
  let bytes ← input.read 65536
  if bytes.isEmpty then return before.reverse
  readRest input (bytes.toList.reverse ++ before)

def burstSize : Nat := 4096

partial def goOn (j : Job) (m : Machine Console) : IO UInt32 := do
  let (a, rest) := j.burst burstSize m
  writeAnswer a
  match rest with
  | none => return a.status.toUInt32
  | some m => goOn j m

end Tally.CommandLine

open Tally CommandLine in
def main (args : List String) : IO UInt32 := do
  let command := Command.ofArgs args
  let source ← readSource command
  match command.reaction fun _ => source with
  | .answer a =>
    writeAnswer a
    return a.status.toUInt32
  | .job j =>
    let input ← if j.readsInput then readRest (← IO.getStdin) [] else pure []
    goOn j (Job.start [.bytes input])

import TreeWalk.Shell.Command

/-!
The command line program: reads files and standard input, and writes what the commands say.
-/

namespace TreeWalk.Shell

/-- The reason of a failed call, as the system words it. -/
def reasonText : IO.Error → String
  | .noFileOrDirectory _ _ _ => FileFault.missing.message
  | .inappropriateType _ 20 _ => FileFault.notDirectory.message
  | .inappropriateType _ 21 _ => FileFault.isDirectory.message
  | .invalidArgument _ 36 _ => FileFault.nameTooLong.message
  | .permissionDenied _ _ _ => "Permission denied (os error 13)"
  | e => toString e

def readSource (name : String) : IO (Except FileFailure String) := do
  match ← (IO.FS.Handle.mk name .read).toBaseIO with
  | .error e => return .error ⟨.opening, name, reasonText e⟩
  | .ok handle =>
    match ← handle.readBinToEnd.toBaseIO with
    | .error e => return .error ⟨.reading, name, reasonText e⟩
    | .ok contents => return sourceText name contents

/-- Creates the log file: what failed, if anything did. -/
def createLog (name : String) : IO (Option FileFailure) := do
  match ← (IO.FS.Handle.mk name .write).toBaseIO with
  | .error e => return some ⟨.creating, name, reasonText e⟩
  | .ok _ => return none

/-- Standard input up to its next line end. -/
def readLine (input : IO.FS.Stream) : IO (List UInt8) := do
  let mut line := #[]
  repeat
    let bytes ← input.read 1
    match bytes.toList with
    | [] => break
    | b :: _ =>
      line := line.push b
      if b = 10 then break
  return line.toList

def writeTranscript (t : Transcript) : IO UInt32 := do
  let output ← IO.getStdout
  output.write t.stdout
  output.flush
  (← IO.getStderr).putStr t.stderr
  return UInt32.ofNat t.exitCode

/-- Writes what was printed between two states. -/
def writePrinted (before after : State) : IO Unit := do
  let output ← IO.getStdout
  let printed := after.sink.written
  output.write (printed.extract before.sink.written.size printed.size)
  output.flush

/-- The prompt, with every line answered before the next is read. -/
def runPrompt : IO UInt32 := do
  let input ← IO.getStdin
  let errors ← IO.getStderr
  let mut state := State.initial .unlimited
  repeat
    let ready := prompted state
    writePrinted state ready
    let line ← readLine input
    if line.isEmpty then break
    match runLine Session.ampleFuel ready line with
    | some (.ok (ds, next)) =>
      writePrinted ready next
      errors.putStr (reportText ds)
      state := next
    | some (.error fault) =>
      errors.putStr (errorText fault.message)
      return 1
    | none => return 1
  return 0

def perform (command : Command) : IO UInt32 := do
  if command = .scripts [] then runPrompt
  else
    let source ← match command.file? with
      | some name => readSource name
      | none => pure (.ok "")
    match command.perform Session.ampleFuel (fun _ => source) .empty with
    | some t => writeTranscript t
    | none => return 1

def start (args : List String) : IO UInt32 := do
  match Invocation.ofArguments args with
  | .error stop => writeTranscript stop.transcript
  | .ok ⟨command, none⟩ => perform command
  | .ok ⟨command, some log⟩ =>
    match ← createLog log with
    | some failure => writeTranscript failure.transcript
    | none => perform command

end TreeWalk.Shell

def main (args : List String) : IO UInt32 := TreeWalk.Shell.start args

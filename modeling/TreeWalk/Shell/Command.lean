import TreeWalk.Session
import TreeWalk.Token.Json
import TreeWalk.Tree.Text
import TreeWalk.Shell.Invocation
import TreeWalk.Shell.Files
import TreeWalk.Shell.Quoted

/-!
What the commands do with the text they are given: what they write and the code they exit with.
-/

namespace TreeWalk.Shell

structure Transcript where
  exitCode : Nat
  stdout : ByteArray
  stderr : String

/-- Reports, each on lines of its own. -/
def reportText (ds : Diagnostics) : String := String.join (ds.map fun r => r.text ++ "\n")

def linesText (lines : List String) : ByteArray :=
  (String.join (lines.map fun line => line ++ "\n")).toUTF8

def errorText (message : String) : String := "Error: " ++ message ++ "\n"

/-- What a file was wanted for. -/
inductive Purpose
  | opening
  | reading
  | creating
  deriving DecidableEq, Repr

def Purpose.message : Purpose → String
  | opening => "Failed to open file"
  | reading => "Failed to read file"
  | creating => "Failed to create"

structure FileFailure where
  purpose : Purpose
  name : String
  reason : String
  deriving DecidableEq, Repr

def FileFailure.text (f : FileFailure) : String :=
  errorText (f.purpose.message ++ " " ++ Quoted.text f.name ++ "\n\nCaused by:\n    " ++ f.reason)

def FileFailure.transcript (f : FileFailure) : Transcript := ⟨1, .empty, f.text⟩

/-- The text of a file with the given contents. -/
def sourceText (name : String) (contents : ByteArray) : Except FileFailure String :=
  match String.fromUTF8? contents with
  | some source => .ok source
  | none => .error ⟨.reading, name, FileFault.notText.message⟩

/-- The text of the file at a path. -/
def Files.source (files : Files) (name : String) : Except FileFailure String :=
  match files.at? name with
  | .error fault => .error ⟨.opening, name, fault.message⟩
  | .ok .directory => .error ⟨.reading, name, FileFault.isDirectory.message⟩
  | .ok (.file contents) => sourceText name contents

/-- Runs a whole file as one unit. -/
def runFile (fuel : Nat) (source : String) : Option Transcript :=
  match Session.run fuel (.initial .unlimited) source with
  | some (ds, s) => some ⟨ds.outcome.exitCode, s.sink.written, reportText ds⟩
  | none => none

/-- Lists the tokens of a file. -/
def tokenizeFile (json : Bool) (source : String) : Transcript :=
  let tokens := Scan.tokens source
  let listing := if json then [Json.tokens .pretty tokens] else tokens.map (·.text)
  let ds := Scan.reports source
  ⟨ds.outcome.exitCode, linesText listing, reportText ds⟩

/-- Lists the syntax trees of a file that has no fault. -/
def parseFile (source : String) : Transcript :=
  let reading := Reading.program source
  let trees := if reading.diagnostics.hadSyntaxError then [] else reading.tree.map (·.text)
  ⟨reading.diagnostics.outcome.exitCode, linesText trees, reportText reading.diagnostics⟩

/-- Prints the value of a file that is one expression. -/
def evaluateFile (fuel : Nat) (source : String) : Option Transcript :=
  match Session.evaluate fuel source with
  | some (.ok value) => some ⟨0, linesText [value.text], ""⟩
  | some (.error ds) => some ⟨ds.outcome.exitCode, .empty, reportText ds⟩
  | none => none

/-! The prompt. -/

/-- Splits bytes behind every line end. -/
def splitLines : List UInt8 → List (List UInt8)
  | [] => []
  | b :: bs =>
    if b = 10 then [b] :: splitLines bs
    else match splitLines bs with
      | [] => [[b]]
      | line :: lines => (b :: line) :: lines

/-- Writes the prompt. -/
def prompted (s : State) : State := { s with sink := s.sink.write "> ".toUTF8 }

/-- A line as text, its end included. -/
def lineText? (line : List UInt8) : Option String := String.fromUTF8? ⟨line.toArray⟩

/-- Runs a line as a unit, unless it is no text. None if the fuel ran out. -/
def runLine (fuel : Nat) (s : State) (line : List UInt8) :
    Option (Except FileFault (Diagnostics × State)) :=
  match lineText? line with
  | none => some (.error .notText)
  | some source => (Session.run fuel s source).map .ok

/-- Runs lines as units of one session, each after a prompt. A line that is no text ends it. -/
def promptFrom (fuel : Nat) (s : State) (reports : Diagnostics) :
    List (List UInt8) → Option Transcript
  | [] => some ⟨0, (prompted s).sink.written, reportText reports⟩
  | line :: lines =>
    match runLine fuel (prompted s) line with
    | some (.ok (ds, t)) => promptFrom fuel t (reports ++ ds) lines
    | some (.error fault) =>
      some ⟨1, (prompted s).sink.written, reportText reports ++ errorText fault.message⟩
    | none => none

def prompt (fuel : Nat) (stdin : ByteArray) : Option Transcript :=
  promptFrom fuel (.initial .unlimited) [] (splitLines stdin.toList)

/-! Whole command lines. -/

def versionText : String := "rox 0.1.0"

def usageText : String := "Usage: rox [script]"

/-- What is done with the text of a file, unless it could not be had. -/
def onSource (source : Except FileFailure String) (f : String → Option Transcript) :
    Option Transcript :=
  match source with
  | .ok text => f text
  | .error failure => some failure.transcript

/-- What a command writes, with the texts of files from `source`. -/
def Command.perform (fuel : Nat) (source : String → Except FileFailure String)
    (stdin : ByteArray) : Command → Option Transcript
  | .scripts [] => prompt fuel stdin
  | .scripts [file] => onSource (source file) (runFile fuel)
  | .scripts _ => some ⟨64, .empty, usageText ++ "\n"⟩
  | .tokenize file json => onSource (source file) fun text => some (tokenizeFile json text)
  | .parse file => onSource (source file) fun text => some (parseFile text)
  | .evaluate file => onSource (source file) (evaluateFile fuel)

/-- A transcript, and the paths of the files that are new. -/
structure Result where
  transcript : Transcript
  created : List String

/-- What is written when a command line leads to no invocation. The words of the help and of the
complaints about arguments are left out. -/
def Stop.transcript : Stop → Transcript
  | version => ⟨0, linesText [versionText], ""⟩
  | help => ⟨0, .empty, ""⟩
  | rejected => ⟨2, .empty, ""⟩

/-- Runs a command line in a directory. The log file is created before anything else. -/
def run (fuel : Nat) (args : List String) (working : Entries) (stdin : ByteArray) :
    Option Result :=
  let files := Files.ofWorking working stdin
  match Invocation.ofArguments args with
  | .error stop => some ⟨stop.transcript, []⟩
  | .ok ⟨command, none⟩ =>
    (command.perform fuel files.source stdin).map fun transcript => ⟨transcript, []⟩
  | .ok ⟨command, some log⟩ =>
    match files.create log with
    | .error fault => some ⟨FileFailure.transcript ⟨.creating, log, fault.message⟩, []⟩
    | .ok (files, created) =>
      (command.perform fuel files.source stdin).map fun transcript => ⟨transcript, created.toList⟩

end TreeWalk.Shell

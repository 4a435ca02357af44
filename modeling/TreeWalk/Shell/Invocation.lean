/-!
Command lines. The first argument may name a mode; without one the other arguments are scripts.
Options stand anywhere, and behind `--` everything is a file name.
-/

namespace TreeWalk.Shell

inductive Command
  | scripts (files : List String)
  | tokenize (file : String) (json : Bool)
  | parse (file : String)
  | evaluate (file : String)
  deriving DecidableEq, Repr

/-- The file that a command reads, if it reads one. -/
def Command.file? : Command → Option String
  | scripts [file] => some file
  | scripts _ => none
  | tokenize file _ => some file
  | parse file => some file
  | evaluate file => some file

structure Invocation where
  command : Command
  /-- The log file to create, if there is to be one. -/
  log : Option String
  deriving DecidableEq, Repr

/-- Why a command line leads to no invocation. -/
inductive Stop
  | version
  | help
  | rejected
  deriving DecidableEq, Repr

/-- How an argument is written. -/
inductive Argument
  | escape
  | long (name : String) (value : Option String)
  | short (letters : List Char)
  | plain (text : String)
  deriving DecidableEq, Repr

def Argument.ofString (arg : String) : Argument :=
  match arg.toList with
  | ['-', '-'] => escape
  | '-' :: '-' :: cs =>
    let name := String.ofList (cs.takeWhile (· != '='))
    match cs.dropWhile (· != '=') with
    | _ :: value => long name (some (String.ofList value))
    | [] => long name none
  | '-' :: c :: cs => short (c :: cs)
  | _ => plain arg

/-- What the first argument chose. -/
inductive Mode
  | scripts
  | tokenize
  | parse
  | evaluate
  deriving DecidableEq, Repr

def Mode.ofString? : String → Option Mode
  | "tokenize" => some tokenize
  | "parse" => some parse
  | "evaluate" => some evaluate
  | _ => none

structure Options where
  log : Bool
  logFile : Option String
  json : Bool
  files : List String
  deriving DecidableEq, Repr

namespace Options

def none : Options := ⟨false, Option.none, false, []⟩

/-- A file name is not empty, and only scripts may be several. -/
def addFile (mode : Mode) (options : Options) (name : String) : Except Stop Options :=
  if name.isEmpty || (mode != .scripts && !options.files.isEmpty) then .error .rejected
  else .ok { options with files := options.files ++ [name] }

/-- The log file is named once and not empty. -/
def setLogFile (options : Options) (name : String) : Except Stop Options :=
  if name.isEmpty || options.logFile.isSome then .error .rejected
  else .ok { options with logFile := some name }

/-- An option without a value. None may stand twice. -/
def setFlag (mode : Mode) (options : Options) (name : String) : Except Stop Options :=
  match name, mode with
  | "log", _ => if options.log then .error .rejected else .ok { options with log := true }
  | "json", .tokenize =>
    if options.json then .error .rejected else .ok { options with json := true }
  | "version", .scripts => .error .version
  | "help", _ => .error .help
  | _, _ => .error .rejected

/-- Reads arguments from left to right. -/
def read (mode : Mode) (options : Options) : List String → Except Stop Options
  | [] => .ok options
  | arg :: rest =>
    match Argument.ofString arg with
    | .escape => rest.foldlM (addFile mode) options
    | .long "log-file" (some name) =>
      match options.setLogFile name with
      | .ok options => read mode options rest
      | .error stop => .error stop
    | .long "log-file" Option.none =>
      match rest with
      | [] => .error .rejected
      | value :: rest =>
        match Argument.ofString value with
        | .plain name =>
          match options.setLogFile name with
          | .ok options => read mode options rest
          | .error stop => .error stop
        | _ => .error .rejected
    | .long name Option.none =>
      match options.setFlag mode name with
      | .ok options => read mode options rest
      | .error stop => .error stop
    | .long _ (some _) => .error .rejected
    | .short ('V' :: _) => .error (if mode = .scripts then .version else .rejected)
    | .short ('h' :: _) => .error .help
    | .short _ => .error .rejected
    | .plain name =>
      match options.addFile mode name with
      | .ok options => read mode options rest
      | .error stop => .error stop

end Options

namespace Invocation

/-- Where the log goes if its file is not named. -/
def defaultLog : String := "app.log"

def ofOptions (mode : Mode) (options : Options) : Except Stop Invocation :=
  let log := if options.log then some (options.logFile.getD defaultLog) else none
  match mode, options.files with
  | .scripts, files => .ok ⟨.scripts files, log⟩
  | .tokenize, [file] => .ok ⟨.tokenize file options.json, log⟩
  | .parse, [file] => .ok ⟨.parse file, log⟩
  | .evaluate, [file] => .ok ⟨.evaluate file, log⟩
  | _, _ => .error .rejected

def ofMode (mode : Mode) (args : List String) : Except Stop Invocation :=
  match Options.none.read mode args with
  | .ok options => ofOptions mode options
  | .error stop => .error stop

/-- Help on the whole, or on one mode that there is. -/
def helpOn : List String → Stop
  | [] => .help
  | [name] => if name = "help" ∨ (Mode.ofString? name).isSome then .help else .rejected
  | _ => .rejected

def ofArguments (args : List String) : Except Stop Invocation :=
  match args with
  | [] => ofMode .scripts []
  | "help" :: rest => .error (helpOn rest)
  | first :: rest =>
    match Mode.ofString? first with
    | some mode => ofMode mode rest
    | none => ofMode .scripts args

end Invocation

end TreeWalk.Shell

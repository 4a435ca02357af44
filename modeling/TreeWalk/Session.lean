import TreeWalk.Token.Scan
import TreeWalk.Grammar.Program
import TreeWalk.Machine.Evaluate

/-!
Sessions: units of source that run one after another in one state. A unit with a lexical or
syntactic fault does not run at all, and a failure ends its unit only.
-/

namespace TreeWalk

/-- The tree of a source text and all reports about the text, the lexical ones first. -/
structure Reading (α : Type) where
  tree : α
  diagnostics : Diagnostics

namespace Reading

def ofTokens {α : Type} (parse : List Token → Grammar.Parsed α) (ts : List Token) : Reading α :=
  let parsed := parse ts
  ⟨parsed.tree, parsed.reports ts⟩

def ofSource {α : Type} (parse : List Token → Grammar.Parsed α) (source : String) : Reading α :=
  let reading := ofTokens parse (Scan.tokens source)
  ⟨reading.tree, Scan.reports source ++ reading.diagnostics⟩

def program (source : String) : Reading (List Stmt) := ofSource Grammar.program source

def expression (source : String) : Reading (Option Expr) :=
  ofSource Grammar.soleExpression source

end Reading

/-- What a finished run came to, and the state it left. -/
structure Finished (α : Type) where
  result : Except Failure α
  state : State

/-- Runs to the end; none if the fuel ran out before it. -/
def Run.finish {α : Type} (run : Run α) (s : State) : Option (Finished α) :=
  match run s with
  | .ok a t => some ⟨.ok a, t⟩
  | .error (.failure failure) t => some ⟨.error failure, t⟩
  | .error .outOfFuel _ => none

namespace Session

/-- Fuel that no run uses up in a lifetime. -/
def ampleFuel : Nat := Nat.pow 2 62

/-- Runs one unit of source: what went wrong in it and the state it leaves. -/
def run (fuel : Nat) (s : State) (source : String) : Option (Diagnostics × State) :=
  let reading := Reading.program source
  if reading.diagnostics.hadSyntaxError then some (reading.diagnostics, s)
  else
    match (interpret fuel reading.tree).finish s with
    | some ⟨.ok (), t⟩ => some (reading.diagnostics, t)
    | some ⟨.error failure, t⟩ => some (reading.diagnostics ++ [failure.report], t)
    | none => none

/-- Runs units in order, with the diagnostics and the state after each. -/
def runAll (fuel : Nat) (s : State) : List String → Option (List (Diagnostics × State))
  | [] => some []
  | source :: sources => do
    let first ← run fuel s source
    let more ← runAll fuel first.2 sources
    return first :: more

/-- Evaluates a source that is a single expression: its value, or what went wrong. -/
def evaluate (fuel : Nat) (source : String) : Option (Except Diagnostics Value) :=
  let reading := Reading.expression source
  match reading.tree, reading.diagnostics.hadSyntaxError with
  | some e, false =>
    match (TreeWalk.evaluate fuel e).finish (.initial .unlimited) with
    | some ⟨.ok value, _⟩ => some (.ok value)
    | some ⟨.error failure, _⟩ => some (.error [failure.report])
    | none => none
  | _, _ => some (.error reading.diagnostics)

end Session

end TreeWalk

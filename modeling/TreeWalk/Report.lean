import TreeWalk.Token

/-!
Reports of what went wrong in a source text or while it ran, the diagnostics of one unit of
source, and what they say about the unit's outcome.
-/

namespace TreeWalk

inductive Report
  | lexical (message : String) (line : Nat)
  | syntactic (message : String) (location : String) (line : Nat)
  | runtime (message : String) (line : Nat)
  | output (message : String)
  deriving DecidableEq, Repr

namespace Report

def syntacticAt (token : Token) (message : String) : Report :=
  syntactic message token.location token.line

def runtimeAt (token : Token) (message : String) : Report := runtime message token.line

def message : Report → String
  | lexical m _ => m
  | syntactic m _ _ => m
  | runtime m _ => m
  | output m => m

def line? : Report → Option Nat
  | lexical _ n => some n
  | syntactic _ _ n => some n
  | runtime _ n => some n
  | output _ => none

def text : Report → String
  | lexical m n => s!"[line {n}] Error: {m}"
  | syntactic m place n => s!"[line {n}] Error{place}: {m}"
  | runtime m n => s!"{m}\n[line {n}]"
  | output m => m

/-- Whether the report is about the source text, so that its unit does not run. -/
def isSyntax : Report → Bool
  | lexical _ _ => true
  | syntactic _ _ _ => true
  | runtime _ _ => false
  | output _ => false

end Report

inductive Outcome
  | success
  | syntaxError
  | runtimeError
  deriving DecidableEq, Repr

def Outcome.exitCode : Outcome → Nat
  | success => 0
  | syntaxError => 65
  | runtimeError => 70

/-- The reports of one unit of source, in the order they were made. -/
abbrev Diagnostics := List Report

namespace Diagnostics

def hadSyntaxError (ds : Diagnostics) : Bool := ds.any Report.isSyntax

def hadRuntimeError (ds : Diagnostics) : Bool := ds.any fun r => !r.isSyntax

def outcome (ds : Diagnostics) : Outcome :=
  if hadSyntaxError ds then .syntaxError
  else if hadRuntimeError ds then .runtimeError
  else .success

end Diagnostics

end TreeWalk

/-!
Where printed bytes go. A sink may take only so many bytes in all; it keeps those that fit and
refuses the rest.
-/

namespace TreeWalk

inductive SinkFault
  | full
  | flush
  deriving DecidableEq, Repr

def SinkFault.message : SinkFault → String
  | full => "sink full"
  | flush => "flush failed"

structure Sink where
  written : ByteArray
  /-- How many bytes the sink takes in all, if there is a limit. -/
  budget : Option Nat
  flushFails : Bool

namespace Sink

/-- A sink that takes everything. -/
def unlimited : Sink := ⟨ByteArray.empty, none, false⟩

/-- Whether all of `bytes` fit. -/
def fits (sink : Sink) (bytes : ByteArray) : Bool :=
  match sink.budget with
  | none => true
  | some budget => sink.written.size + bytes.size ≤ budget

/-- The part of `bytes` that fits. -/
def accepted (sink : Sink) (bytes : ByteArray) : ByteArray :=
  match sink.budget with
  | none => bytes
  | some budget => bytes.extract 0 (budget - sink.written.size)

def write (sink : Sink) (bytes : ByteArray) : Sink :=
  { sink with written := sink.written ++ sink.accepted bytes }

end Sink

end TreeWalk

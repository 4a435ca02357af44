import TreeWalk.Proofs.Machine.ActiveScope
import TreeWalk.Proofs.Machine.Sequence

/-!
What runs do to the sink. Output is only ever added to, and how much the sink takes and whether it
can be flushed stay as they are.
-/

namespace TreeWalk

/-- The second sink is the first one after some more output. -/
structure Sink.Continues (k l : Sink) : Prop where
  budget : l.budget = k.budget
  flushFails : l.flushFails = k.flushFails
  written : ∃ more, l.written = k.written ++ more

namespace Sink.Continues

theorem refl (k : Sink) : Continues k k := ⟨rfl, rfl, ByteArray.empty, by simp⟩

theorem trans {k l m : Sink} (hkl : Continues k l) (hlm : Continues l m) : Continues k m := by
  obtain ⟨first, hfirst⟩ := hkl.written
  obtain ⟨second, hsecond⟩ := hlm.written
  refine ⟨hlm.budget.trans hkl.budget, hlm.flushFails.trans hkl.flushFails, first ++ second, ?_⟩
  rw [hsecond, hfirst, ByteArray.append_assoc]

end Sink.Continues

theorem Sink.write_continues (k : Sink) (bytes : ByteArray) : k.Continues (k.write bytes) :=
  ⟨rfl, rfl, k.accepted bytes, rfl⟩

def State.Outputs (s t : State) : Prop := s.sink.Continues t.sink

open Run State

theorem assign_outputs (name : Token) (value : Value) : Leaves Outputs (assign name value) := by
  rintro ⟨heap, active, sink⟩
  unfold after assign
  dsimp only
  cases heap.owner? active name.lexeme <;> exact Sink.Continues.refl sink

theorem printLine_outputs (text : String) : Leaves Outputs (printLine text) := by
  rintro ⟨heap, active, sink⟩
  unfold after printLine
  dsimp only
  cases sink.fits (text ++ "\n").toUTF8 <;> exact sink.write_continues _

theorem inside_outputs {α : Type} (outer : ScopeId) (bindings : List (String × Value))
    (body : Run α) (hbody : Leaves Outputs body) :
    Leaves Outputs (inside outer bindings body) := by
  intro s
  have hrun : (inside outer bindings body).after s =
      (within s.heap.nextScope body).after { s with heap := s.heap.addScope outer bindings } := rfl
  rw [hrun, after_within]
  exact hbody ⟨s.heap.addScope outer bindings, s.heap.nextScope, s.sink⟩

theorem steps_output : KeptBySteps Outputs Outputs where
  refl := fun s => .refl s.sink
  trans := fun _ _ _ hst htu => hst.trans htu
  stmt_trans := fun _ _ _ hst htu => hst.trans htu
  stmt_of_expr := fun _ _ h => h
  assign := assign_outputs
  define := fun _ _ s => .refl s.sink
  declare := fun _ s => .refl s.sink
  printLine := printLine_outputs
  inside := inside_outputs

theorem executes_outputs {s : State} {ss : List Stmt} {f : Finished Flow}
    (h : Executes s ss f) : Outputs s f.state := by
  obtain ⟨fuel, hfuel⟩ := ends_executeAll.2 h
  exact ((steps_output.runs fuel).executeAll ss).finish hfuel

end TreeWalk

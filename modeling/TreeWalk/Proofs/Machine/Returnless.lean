import TreeWalk.Proofs.Grammar.Derivation
import TreeWalk.Proofs.Machine.Leaves

/-!
Statements without a `return` of their own, which is one outside the bodies of the functions they
declare. They never end by one. Every statement of a regular program is such a statement.
-/

namespace TreeWalk

inductive Stmt.Returnless : Stmt → Prop
  | expression (value : Expr) : Returnless (.expression value)
  | print (value : Expr) : Returnless (.print value)
  | varDecl (name : Token) (initial : Option Expr) : Returnless (.varDecl name initial)
  | block {body : List Stmt} : (∀ s ∈ body, Returnless s) → Returnless (.block body)
  | ifElse (condition : Expr) {thenBranch : Stmt} {elseBranch : Option Stmt} :
    Returnless thenBranch → (∀ s ∈ elseBranch, Returnless s) →
    Returnless (.ifElse condition thenBranch elseBranch)
  | whileLoop (condition : Expr) {body : Stmt} : Returnless body →
    Returnless (.whileLoop condition body)
  | funDecl (declaration : FunDecl) : Returnless (.funDecl declaration)
  | classDecl (name : Token) (superclass : Option Expr) (methods : List FunDecl) :
    Returnless (.classDecl name superclass methods)

namespace Run

/-- If the run ends with a flow, it is the normal one. -/
def EndsNormal (m : Run Flow) : Prop := ∀ s flow t, m s = .ok flow t → flow = .normal

theorem endsNormal_outOfFuel : EndsNormal outOfFuel := fun _ _ _ h => nomatch h

theorem endsNormal_pure : EndsNormal (pure .normal) := by
  intro s flow t h
  cases h
  rfl

theorem EndsNormal.bind {α : Type} {m : Run α} {next : α → Run Flow}
    (h : ∀ a, EndsNormal (next a)) : EndsNormal (m >>= next) := by
  intro s flow t hrun
  change EStateM.bind m next s = _ at hrun
  unfold EStateM.bind at hrun
  cases hm : m s with
  | ok a u =>
    rw [hm] at hrun
    exact h a u flow t hrun
  | error e u =>
    rw [hm] at hrun
    cases hrun

/-- After a run that ends normally, only what follows a normal end matters. -/
theorem EndsNormal.bindFlow {m : Run Flow} {next : Flow → Run Flow} (hm : EndsNormal m)
    (h : EndsNormal (next .normal)) : EndsNormal (m >>= next) := by
  intro s flow t hrun
  change EStateM.bind m next s = _ at hrun
  unfold EStateM.bind at hrun
  cases hfirst : m s with
  | ok first u =>
    rw [hfirst] at hrun
    obtain rfl := hm s first u hfirst
    exact h u flow t hrun
  | error e u =>
    rw [hfirst] at hrun
    cases hrun

theorem EndsNormal.nested {m : Run Flow} (h : EndsNormal m) : EndsNormal (nested m) := by
  rintro ⟨heap, active, sink⟩ flow t hrun
  unfold Run.nested inside within at hrun
  dsimp only at hrun
  cases hm : m ⟨heap.addScope active [], heap.nextScope, sink⟩ with
  | ok flow' u =>
    rw [hm] at hrun
    cases hrun
    exact h _ _ _ hm
  | error e u =>
    rw [hm] at hrun
    cases hrun

end Run

open Run

theorem returnless_ends (fuel : Nat) :
    (∀ {s : Stmt}, s.Returnless → EndsNormal (execute fuel s)) ∧
    ∀ {ss : List Stmt}, (∀ s ∈ ss, s.Returnless) → EndsNormal (executeAll fuel ss) := by
  induction fuel with
  | zero => exact ⟨fun _ => endsNormal_outOfFuel, fun _ => endsNormal_outOfFuel⟩
  | succ fuel ih =>
    constructor
    · intro s hs
      cases hs with
      | expression value => exact .bind fun _ => endsNormal_pure
      | print value => exact .bind fun _ => .bind fun _ => endsNormal_pure
      | varDecl name initial =>
        cases initial with
        | none => exact .bind fun _ => endsNormal_pure
        | some initial => exact .bind fun _ => .bind fun _ => endsNormal_pure
      | block hbody => exact (ih.2 hbody).nested
      | @ifElse condition thenBranch elseBranch hthen helse =>
        rw [execute_ifElse]
        apply EndsNormal.bind
        intro test
        split
        · exact ih.1 hthen
        · cases elseBranch with
          | none => exact endsNormal_pure
          | some elseBranch => exact ih.1 (helse elseBranch rfl)
      | whileLoop condition hbody =>
        apply EndsNormal.bind
        intro test
        split
        · exact (ih.1 hbody).bindFlow (ih.1 (.whileLoop condition hbody))
        · exact endsNormal_pure
      | funDecl declaration => exact .bind fun _ => endsNormal_pure
      | classDecl name superclass methods => exact .bind fun _ => endsNormal_pure
    · intro ss hss
      cases ss with
      | nil => exact endsNormal_pure
      | cons s ss =>
        obtain ⟨hs, hss⟩ := List.forall_mem_cons.1 hss
        exact (ih.1 hs).bindFlow (ih.2 hss)

namespace Grammar.Derivation

theorem forLoop_returnless {start : Option Stmt} {body : Stmt} (condition step : Option Expr)
    (hstart : ∀ s ∈ start, s.Returnless) (hbody : body.Returnless) :
    (Stmt.forLoop start condition step body).Returnless :=
  Stmt.forLoop_of_parts (E := fun _ => True) trivial (fun _ => .expression _) .block
    (fun _ hbody => .whileLoop _ hbody) hstart (fun _ _ => trivial) (fun _ _ => trivial) hbody

theorem ForStart.returnless (d : ForStart) : ∀ s ∈ d.tree, s.Returnless := by
  intro s hs
  cases d with
  | absent semicolon => cases hs
  | varDecl declaration =>
    cases hs
    exact .varDecl _ _
  | exprStmt statement =>
    cases hs
    exact .expression _

mutual

theorem Declaration.returnless : ∀ (d : Declaration), d.Regular 0 → d.tree.Returnless
  | .classDecl _ _ _, _ => .classDecl _ _ _
  | .funDecl _ _, _ => .funDecl _
  | .varDecl _, _ => .varDecl _ _
  | .statement statement, h => statement.returnless h

theorem Block.returnless : ∀ (d : Block), d.Regular 0 → ∀ s ∈ d.trees, s.Returnless
  | .mk _ body _, h => body.returnless h

theorem Declarations.returnless : ∀ (d : Declarations), d.Regular 0 → ∀ s ∈ d.trees, s.Returnless
  | .done, _ => fun _ h => nomatch h
  | .next first more, h =>
    List.forall_mem_cons.2 ⟨first.returnless h.1, more.returnless h.2⟩

theorem Statement.returnless : ∀ (d : Statement), d.Regular 0 → d.tree.Returnless
  | .expression _, _ => .expression _
  | .forLoop head body, h => by
    rw [Statement.tree, ForHead.tree_eq]
    exact forLoop_returnless _ _ head.start.returnless (body.returnless h.2)
  | .ifThen _ thenBranch, h => .ifElse _ (thenBranch.returnless h.2) (fun _ h => nomatch h)
  | .ifElse _ thenBranch _ elseBranch, h => by
    refine .ifElse _ (thenBranch.returnless h.2.1) ?_
    rintro _ ⟨⟩
    exact elseBranch.returnless h.2.2.2
  | .print _ _, _ => .print _
  | .returnValue _ _ _, h => absurd h.1 (Nat.lt_irrefl 0)
  | .whileLoop _ body, h => .whileLoop _ (body.returnless h.2)
  | .block block, h => .block (block.returnless h)

end

end Grammar.Derivation

end TreeWalk

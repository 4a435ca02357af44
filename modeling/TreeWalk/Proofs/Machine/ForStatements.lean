import TreeWalk.Proofs.Grammar.Soundness
import TreeWalk.Proofs.Machine.Loops
import TreeWalk.Proofs.Machine.ScopeTree

/-!
The trees of `for` statements. The parser has no tree for `for`: it makes a `while` loop in blocks.
That tree has the effect of the loop that was written, and the scopes the blocks make are never
bound in where the loop would see it.
-/

namespace TreeWalk

open Run

/-! ## A state and itself -/

/-- The scopes below `n` are their own counterparts. -/
def Matching.same (n : Nat) : Matching :=
  ⟨fun i j => i = j ∧ i < n, fun _ _ => False, fun _ _ => False⟩

theorem Value.Below.alike {n : Nat} {v : Value} (h : v.Below n) : v.Alike (.same n) v := by
  cases v with
  | nil => exact .nil
  | bool b => exact .bool b
  | number x => exact .number x
  | string contents => exact .string contents
  | function f => exact .function f.id f.declaration ⟨rfl, h f.closure rfl⟩

namespace Heap.Tree

variable {h : Heap} (ht : h.Tree)
include ht

theorem alike : h.Alike (.same h.scopes.size) h where
  functions := rfl
  founded := ht.founded
  founded' := ht.founded
  unique := by
    constructor
    · rintro i j k ⟨rfl, _⟩ ⟨rfl, _⟩
      rfl
    · rintro i j k ⟨rfl, _⟩ ⟨rfl, _⟩
      rfl
  pair := by
    rintro i _ ⟨rfl, hi⟩
    have hscope : h.scopes[i]? = some h.scopes[i] := Array.getElem?_eq_getElem hi
    refine ⟨_, _, hscope, hscope, ?_, fun name => ?_⟩
    · cases houter : h.scopes[i].enclosing with
      | none => exact .none
      | some outer => exact .some (.pair ⟨rfl, Nat.lt_trans (ht.outer_lt hscope houter) hi⟩)
    · cases hlookup : h.scopes[i].bindings.lookup name with
      | none => exact .none
      | some v =>
        have hmem : (name, v) ∈ h.scopes[i].bindings := Scope.mem_of_lookup hlookup
        exact .some (Value.Below.alike (ht.closures i _ hscope _ hmem))
  leftGap := nofun
  rightGap := nofun
  left := fun i hi => .inl ⟨i, rfl, hi⟩
  right := fun i hi => .inl ⟨i, rfl, hi⟩

end Heap.Tree

/-! ## What stays out of sight -/

/-- In the scope that was active each name has the owner it had. -/
def Run.Hides {α : Type} (m : Run α) : Prop :=
  ∀ s : State, s.heap.Tree → s.active < s.heap.scopes.size → ∀ name : String,
    (m.after s).heap.owner? s.active name = s.heap.owner? s.active name

theorem undeclaring_hides (fuel : Nat) {s : Stmt} (hs : s.Undeclaring) :
    Hides (execute fuel s) :=
  fun t ht hactive name =>
    (undeclaring_sameNames fuel hs t).names.owner?_eq ht.founded name hactive

theorem executeAll_sameNames (fuel : Nat) {ss : List Stmt} (hss : ∀ s ∈ ss, s.Undeclaring) :
    Leaves State.SameNames (executeAll fuel ss) := by
  induction fuel generalizing ss with
  | zero => exact leaves_outOfFuel State.SameNames.refl
  | succ fuel ih =>
    cases ss with
    | nil =>
      rw [executeAll]
      exact leaves_pure State.SameNames.refl Flow.normal
    | cons s ss =>
      rw [executeAll_cons]
      apply (undeclaring_sameNames fuel (hss s List.mem_cons_self)).bind State.SameNames.trans
      intro flow
      cases flow with
      | returned value => exact leaves_pure State.SameNames.refl (Flow.returned value)
      | normal => exact ih fun t ht => hss t (List.mem_cons_of_mem _ ht)

theorem Scope.bindings_eq_nil {scope : Scope} (h : ∀ name, scope.binds name = false) :
    scope.bindings = [] := by
  obtain ⟨bindings, enclosing⟩ := scope
  cases bindings with
  | nil => rfl
  | cons first rest =>
    have hfirst := h first.1
    simp [Scope.binds, Scope.lookup] at hfirst

/-- A block without declarations binds nothing in its scope, however far it gets. -/
theorem after_block_empty (fuel : Nat) {body : List Stmt} (hbody : ∀ s ∈ body, s.Undeclaring)
    (s : State) : ((execute (fuel + 1) (.block body)).after s).heap.scopes[s.heap.nextScope]? =
      some ⟨[], some s.active⟩ := by
  have hrun : (execute (fuel + 1) (.block body)).after s =
      { (executeAll fuel body).after s.nested with active := s.active } := by
    rw [execute]
    exact after_within s.heap.nextScope _ ⟨s.heap.addScope s.active [], s.active, s.sink⟩
  have hadded : s.nested.heap.scopes[s.heap.nextScope]? = some ⟨[], some s.active⟩ := by
    rw [State.nested, Heap.getElem?_addScope, if_pos s.heap.nextScope_eq]
  obtain ⟨⟨bindings, enclosing⟩, hkept, rfl, _, hnames⟩ :=
    (executeAll_sameNames fuel hbody s.nested).names _ _ hadded
  have hempty : bindings = [] := Scope.bindings_eq_nil fun name => hnames not_false name
  rw [hrun, ← hempty]
  exact hkept

/-! ## Parsed loops -/

/-- The ends of two runs from `s` show no difference: the scopes that were there are counterparts,
and all that is bound in them, the result and the output correspond. -/
def SameEffect (s : State) (f g : Finished Flow) : Prop :=
  f.state.active = s.active ∧ g.state.active = s.active ∧ f.state.sink = g.state.sink ∧
    ∃ w : Matching, (∀ i, i < s.heap.scopes.size → w.pair i i) ∧
      f.state.heap.Alike w g.state.heap ∧ SameResult (Flow.Alike w) f.result g.result

theorem sameEffect_of_alike {s : State} {f g : Finished Flow}
    (h : f.Alike (.same s.heap.scopes.size) s.active s.active Flow.Alike g) :
    SameEffect s f g := by
  obtain ⟨result, u⟩ := f
  obtain ⟨result', v⟩ := g
  obtain ⟨w, hw, hresult, ⟨hheap⟩⟩ := h
  exact ⟨rfl, rfl, rfl, w, fun i hi => hw.pair i i ⟨rfl, hi⟩, hheap, hresult⟩

namespace Grammar

open TreeWalk.Grammar.Derivation TreeWalk.Grammar.Parse

/-- The statement of a loop, a branch or a body is no declaration. -/
theorem Derivation.Statement.undeclaring (d : Statement) : d.tree.Undeclaring := by
  cases d with
  | expression statement => exact .expression _
  | forLoop head body =>
    rw [Statement.tree, ForHead.tree_eq]
    exact body.undeclaring.forLoop _ _ _
  | ifThen guard thenBranch =>
    refine .ifElse _ thenBranch.undeclaring ?_
    rintro _ ⟨⟩
  | ifElse guard thenBranch keyword elseBranch =>
    refine .ifElse _ thenBranch.undeclaring ?_
    rintro _ ⟨⟩
    exact elseBranch.undeclaring
  | print keyword statement => exact .print _
  | returnValue keyword value semicolon => exact .returnValue _ _
  | whileLoop guard body => exact .whileLoop _ body.undeclaring
  | block block => exact .block _

/-- What the parser reads from the keyword `for` on is a `for` statement. -/
theorem forStatement_sound {fuel depth : Nat} {keyword : Token} {ts rest : List Token} {s : Stmt}
    (hkeyword : keyword.is (.keyword .forWord) = true)
    (h : Reads (statement fuel depth) (keyword :: ts) s rest) :
    ∃ (head : ForHead) (body : Statement), keyword :: ts = head.yield ++ (body.yield ++ rest) ∧
      s = (Statement.forLoop head body).tree := by
  cases fuel with
  | zero => simp [statement] at h
  | succ fuel =>
    rw [statement, reads_accept_bind] at h
    rcases h with ⟨_, mid, hfor, ⟨⟩, h⟩ | ⟨hnone, _⟩
    · simp only [reads_bind, reads_pure] at h
      obtain ⟨clauses, _, hclauses, body, _, hbody, rfl, rfl⟩ := h
      obtain ⟨head, hhead, rfl, _⟩ := forClauses_sound ⟨keyword, hfor⟩ hclauses
      obtain ⟨b, rfl, rfl, _⟩ := (statementSound fuel).statement hbody
      exact ⟨head, b, hhead, (head.tree_eq b.tree).symm⟩
    · rw [nextIs_of_kind (Token.is_iff.1 hkeyword)] at hnone
      cases hnone

end Grammar

open Grammar.Derivation in
/-- The tree of a `for` statement that was read without a fault does what the loop does that was
written, and ends in the same ways. Its body declares nothing that the condition and the step could
see: the scope around body and step stays empty. The loop leaves no name behind, nor does its
start. -/
theorem for_statements_preserved (fuel depth : Nat) (keyword : Token) (ts rest : List Token)
    (tree : Stmt) (hkeyword : keyword.is (.keyword .forWord) = true)
    (hparsed : Grammar.statement fuel depth (keyword :: ts) = ⟨.done tree, rest, []⟩) :
    ∃ (head : ForHead) (body : Statement), keyword :: ts = head.yield ++ (body.yield ++ rest) ∧
      (∀ s : State, s.heap.Tree → s.active < s.heap.scopes.size →
        (∀ f, Ends (execute · tree) s f →
          ∃ g, ForRuns head.start.tree (head.condition.map Expression.tree)
            (head.step.map Expression.tree) body.tree s g ∧ SameEffect s f g) ∧
        (∀ g, ForRuns head.start.tree (head.condition.map Expression.tree)
            (head.step.map Expression.tree) body.tree s g →
          ∃ f, Ends (execute · tree) s f ∧ SameEffect s f g)) ∧
      (∀ fuel, Leaves State.SameNames (execute fuel body.tree) ∧ Hides (execute fuel body.tree)) ∧
      (∀ (fuel : Nat) (step : Expr) (s : State),
        ((execute (fuel + 1) (.block [body.tree, .expression step])).after
          s).heap.scopes[s.heap.nextScope]? = some ⟨[], some s.active⟩) ∧
      (∀ fuel, Leaves State.SameNames (execute fuel tree) ∧ Hides (execute fuel tree)) := by
  obtain ⟨head, body, hyield, rfl⟩ := Grammar.forStatement_sound hkeyword hparsed
  have hbody := body.undeclaring
  have hloop := (Statement.forLoop head body).undeclaring
  refine ⟨head, body, hyield, ?_, ?_, ?_, ?_⟩
  · intro s htree hactive
    have hab : (Matching.same s.heap.scopes.size).Behind s.active s.active := .pair ⟨rfl, hactive⟩
    have hsame := forLoop_sameRuns hbody head.start.tree (head.condition.map Expression.tree)
      (head.step.map Expression.tree) hab
    rw [← head.tree_eq] at hsame
    have hlinked : State.Linked (.same s.heap.scopes.size) s.active s.active s s :=
      ⟨_, .refl _, ⟨htree.alike⟩⟩
    constructor
    · intro f hf
      obtain ⟨g, hg, halike⟩ := hsame.forth s s f hlinked hf
      exact ⟨g, hg, sameEffect_of_alike halike⟩
    · intro g hg
      obtain ⟨f, hf, halike⟩ := hsame.back s s g hlinked hg
      exact ⟨f, hf, sameEffect_of_alike halike⟩
  · exact fun fuel => ⟨undeclaring_sameNames fuel hbody, undeclaring_hides fuel hbody⟩
  · intro fuel step s
    apply after_block_empty
    simpa using ⟨hbody, Stmt.Undeclaring.expression step⟩
  · exact fun fuel => ⟨undeclaring_sameNames fuel hloop, undeclaring_hides fuel hloop⟩

def word (symbol : Symbol) (text : String) : Token := ⟨.symbol symbol, text, 1⟩

def forWord : Token := word (.keyword .forWord) "for"

/-- The tokens of `(var a = true; a; a = nil) { fun f() {} print f; }`. -/
def closingLoop : List Token :=
  [word .leftParen "(", word (.keyword .varWord) "var", named "a", word .equal "=",
    word (.keyword .trueWord) "true", word .semicolon ";", named "a", word .semicolon ";",
    named "a", word .equal "=", word (.keyword .nilWord) "nil", word .rightParen ")",
    word .leftBrace "\x7b", word (.keyword .funWord) "fun", named "f", word .leftParen "(",
    word .rightParen ")", word .leftBrace "\x7b", word .rightBrace "\x7d",
    word (.keyword .printWord) "print", named "f", word .semicolon ";", word .rightBrace "\x7d"]

/-- What the parser makes of the loop. -/
def closingTree : Stmt :=
  .block [.varDecl (named "a") (some (.literal (.bool true))),
    .whileLoop (.reference (named "a"))
      (.block [.block [.funDecl ⟨named "f", [], []⟩, .print (.reference (named "f"))],
        .expression (.assign (named "a") (.literal .nil))])]

open Grammar.Derivation in
/-- The loop goes round once, and the function made there closes over a scope that is inside one
more in the tree than in the loop that was written. -/
theorem closingLoop_preserved :
    Grammar.statement 40 0 (forWord :: closingLoop) = ⟨.done closingTree, [], []⟩ ∧
    ∃ (head : ForHead) (body : Statement) (f g : Finished Flow),
      forWord :: closingLoop = head.yield ++ (body.yield ++ []) ∧
      Ends (execute · closingTree) (.initial .unlimited) f ∧
      f.state.sink.written = "<fn f>\n".toUTF8 ∧
      ForRuns head.start.tree (head.condition.map Expression.tree)
        (head.step.map Expression.tree) body.tree (.initial .unlimited) g ∧
      SameEffect (.initial .unlimited) f g := by
  have hparsed : Grammar.statement 40 0 (forWord :: closingLoop) = ⟨.done closingTree, [], []⟩ :=
    rfl
  obtain ⟨head, body, hyield, hruns, _⟩ :=
    for_statements_preserved 40 0 forWord closingLoop [] closingTree rfl hparsed
  have hf : Ends (execute · closingTree) (.initial .unlimited) _ := ⟨20, rfl⟩
  obtain ⟨g, hg, hsame⟩ := (hruns (.initial .unlimited) Heap.tree_empty Nat.one_pos).1 _ hf
  exact ⟨hparsed, head, body, _, g, hyield, hf, by decide, hg, hsame⟩

end TreeWalk

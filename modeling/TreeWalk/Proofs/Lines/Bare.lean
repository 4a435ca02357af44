import TreeWalk.Proofs.Machine.Scopes
import TreeWalk.Machine.State

/-!
Trees, values and states without their line numbers, which all become 0. Things are the same up
to lines if they are the same when bare. The operations on bare scopes and heaps give the bare
results.
-/

namespace TreeWalk

def Token.bare (t : Token) : Token := { t with line := 0 }

@[simp] theorem Token.kind_bare (t : Token) : t.bare.kind = t.kind := rfl

@[simp] theorem Token.lexeme_bare (t : Token) : t.bare.lexeme = t.lexeme := rfl

@[simp] theorem Token.is_bare (t : Token) (symbol : Symbol) : t.bare.is symbol = t.is symbol := rfl

mutual

def Expr.bare : Expr → Expr
  | .literal value => .literal value
  | .unary operator right => .unary operator.bare right.bare
  | .binary left operator right => .binary left.bare operator.bare right.bare
  | .logical left operator right => .logical left.bare operator.bare right.bare
  | .group inner => .group inner.bare
  | .reference name => .reference name.bare
  | .assign name value => .assign name.bare value.bare
  | .call callee paren arguments => .call callee.bare paren.bare (Expr.bareAll arguments)

def Expr.bareAll : List Expr → List Expr
  | [] => []
  | e :: es => e.bare :: Expr.bareAll es

end

@[simp] theorem Expr.bareAll_eq (es : List Expr) : bareAll es = es.map bare := by
  induction es with
  | nil => rfl
  | cons e es ih => rw [bareAll, ih, List.map_cons]

mutual

def Stmt.bare : Stmt → Stmt
  | .expression value => .expression value.bare
  | .print value => .print value.bare
  | .varDecl name initial => .varDecl name.bare (initial.map Expr.bare)
  | .block body => .block (Stmt.bareAll body)
  | .ifElse condition thenBranch none => .ifElse condition.bare thenBranch.bare none
  | .ifElse condition thenBranch (some elseBranch) =>
    .ifElse condition.bare thenBranch.bare (some elseBranch.bare)
  | .whileLoop condition body => .whileLoop condition.bare body.bare
  | .funDecl declaration => .funDecl declaration.bare
  | .returnValue keyword value => .returnValue keyword.bare (value.map Expr.bare)
  | .classDecl name superclass methods =>
    .classDecl name.bare (superclass.map Expr.bare) (FunDecl.bareAll methods)

def Stmt.bareAll : List Stmt → List Stmt
  | [] => []
  | s :: ss => s.bare :: Stmt.bareAll ss

def FunDecl.bare : FunDecl → FunDecl
  | ⟨name, params, body⟩ => ⟨name.bare, params.map Token.bare, Stmt.bareAll body⟩

def FunDecl.bareAll : List FunDecl → List FunDecl
  | [] => []
  | d :: ds => d.bare :: FunDecl.bareAll ds

end

@[simp] theorem Stmt.bareAll_eq (ss : List Stmt) : bareAll ss = ss.map bare := by
  induction ss with
  | nil => rfl
  | cons s ss ih => rw [bareAll, ih, List.map_cons]

@[simp] theorem FunDecl.bareAll_eq (ds : List FunDecl) : bareAll ds = ds.map bare := by
  induction ds with
  | nil => rfl
  | cons d ds ih => rw [bareAll, ih, List.map_cons]

theorem Stmt.bare_ifElse (condition : Expr) (thenBranch : Stmt) (elseBranch : Option Stmt) :
    (Stmt.ifElse condition thenBranch elseBranch).bare =
      .ifElse condition.bare thenBranch.bare (elseBranch.map Stmt.bare) := by
  cases elseBranch <;> rw [Stmt.bare] <;> rfl

namespace FunDecl

variable (d : FunDecl)

@[simp] theorem name_bare : d.bare.name = d.name.bare := by
  cases d
  rw [bare]

@[simp] theorem params_bare : d.bare.params = d.params.map Token.bare := by
  cases d
  rw [bare]

@[simp] theorem body_bare : d.bare.body = d.body.map Stmt.bare := by
  cases d
  rw [bare, Stmt.bareAll_eq]

@[simp] theorem arity_bare : d.bare.arity = d.arity := by
  rw [arity, params_bare, List.length_map]
  rfl

end FunDecl

/-! ## Values and scopes -/

def Function.bare (f : Function) : Function := { f with declaration := f.declaration.bare }

def Value.bare : Value → Value
  | .function f => .function f.bare
  | other => other

namespace Value

@[simp] theorem isTruthy_bare (v : Value) : v.bare.isTruthy = v.isTruthy := by
  cases v <;> rfl

@[simp] theorem text_bare (v : Value) : v.bare.text = v.text := by
  cases v with
  | function f => simp [bare, text, Function.text, Function.name, Function.bare]
  | _ => rfl

@[simp] theorem equal_bare (v w : Value) : v.bare.equal w.bare = v.equal w := by
  cases v <;> cases w <;> rfl

@[simp] theorem bare_ofLiteral (literal : Literal) :
    (ofLiteral literal).bare = ofLiteral literal := by
  cases literal <;> rfl

end Value

/-- Bindings with bare values. -/
def Scope.bareBindings (bindings : List (String × Value)) : List (String × Value) :=
  bindings.map fun b => (b.1, b.2.bare)

def Scope.bare (scope : Scope) : Scope := ⟨bareBindings scope.bindings, scope.enclosing⟩

def Heap.bare (h : Heap) : Heap := ⟨h.scopes.map Scope.bare, h.functions⟩

def State.bare (s : State) : State := ⟨s.heap.bare, s.active, s.sink⟩

namespace Scope

theorem lookup_bareBindings (bindings : List (String × Value)) (name : String) :
    (bareBindings bindings).lookup name = (bindings.lookup name).map Value.bare := by
  induction bindings with
  | nil => rfl
  | cons first rest ih =>
    obtain ⟨key, value⟩ := first
    rw [bareBindings, List.map_cons, lookup_cons, lookup_cons]
    split
    · rfl
    · exact ih

theorem put_bare (name : String) (value : Value) (bindings : List (String × Value)) :
    put name value.bare (bareBindings bindings) = bareBindings (put name value bindings) := by
  induction bindings with
  | nil => rfl
  | cons first rest ih =>
    obtain ⟨key, old⟩ := first
    rw [bareBindings, List.map_cons, put, put]
    split
    · rfl
    · exact congrArg _ ih

/-- Arguments are bound to parameters alike. -/
theorem bindAll_bare (names : List String) (values : List Value) :
    (names.zip (values.map Value.bare)).foldl (fun bs b => put b.1 b.2 bs) [] =
      bareBindings ((names.zip values).foldl (fun bs b => put b.1 b.2 bs) []) := by
  have hfrom : ∀ bindings : List (String × Value),
      (names.zip (values.map Value.bare)).foldl (fun bs b => put b.1 b.2 bs)
          (bareBindings bindings) =
        bareBindings ((names.zip values).foldl (fun bs b => put b.1 b.2 bs) bindings) := by
    induction names generalizing values with
    | nil => exact fun _ => rfl
    | cons name names ih =>
      intro bindings
      cases values with
      | nil => rfl
      | cons value values =>
        simp only [List.map_cons, List.zip_cons_cons, List.foldl_cons, put_bare, ih]
  exact hfrom []

theorem lookup_bare (scope : Scope) (name : String) :
    scope.bare.lookup name = (scope.lookup name).map Value.bare :=
  lookup_bareBindings scope.bindings name

theorem binds_bare (scope : Scope) (name : String) : scope.bare.binds name = scope.binds name := by
  rw [binds, binds, lookup_bare, Option.isSome_map]

theorem define_bare (scope : Scope) (name : String) (value : Value) :
    scope.bare.define name value.bare = (scope.define name value).bare := by
  rw [define, bare, put_bare]
  rfl

end Scope

namespace Heap

variable (h : Heap) (s : ScopeId) (name : String)

theorem getElem?_bare : h.bare.scopes[s]? = h.scopes[s]?.map Scope.bare := Array.getElem?_map

theorem ownerFrom_bare (fuel : Nat) : h.bare.ownerFrom name fuel s = h.ownerFrom name fuel s := by
  induction fuel generalizing s with
  | zero => rfl
  | succ fuel ih =>
    rw [ownerFrom, ownerFrom, getElem?_bare]
    cases h.scopes[s]? with
    | none => rfl
    | some scope =>
      simp only [Option.map_some, Scope.binds_bare]
      rw [show scope.bare.enclosing = scope.enclosing from rfl]
      cases scope.enclosing with
      | none => rfl
      | some outer => simp only [ih]

theorem owner?_bare : h.bare.owner? s name = h.owner? s name := ownerFrom_bare h s name (s + 1)

theorem get?_bare : h.bare.get? s name = (h.get? s name).map Value.bare := by
  rw [get?, get?, owner?_bare]
  cases h.owner? s name with
  | none => rfl
  | some owner =>
    simp only [Option.bind_eq_bind, Option.bind_some, getElem?_bare]
    cases h.scopes[owner]? with
    | none => rfl
    | some scope => exact Scope.lookup_bare scope name

theorem define_bare (value : Value) :
    h.bare.define s name value.bare = (h.define s name value).bare := by
  have hscopes : (h.scopes.map Scope.bare).modify s (Scope.define name value.bare) =
      (h.scopes.modify s (Scope.define name value)).map Scope.bare := by
    apply Array.ext_getElem?
    intro i
    rw [Array.getElem?_modify, Array.getElem?_map, Array.getElem?_map, Array.getElem?_modify]
    split
    · cases h.scopes[i]? with
      | none => rfl
      | some scope => exact congrArg some (Scope.define_bare scope name value)
    · rfl
  rw [define, define, bare, bare, hscopes]

theorem addScope_bare (bindings : List (String × Value)) :
    h.bare.addScope s (Scope.bareBindings bindings) = (h.addScope s bindings).bare := by
  rw [addScope, addScope, bare, bare, Array.map_push]
  rfl

@[simp] theorem nextScope_bare : h.bare.nextScope = h.nextScope := Array.size_map

theorem declare_bare (declaration : FunDecl) :
    h.bare.declare s declaration.bare = (h.declare s declaration).bare := by
  have hname : declaration.bare.name.lexeme = declaration.name.lexeme := by simp
  simp only [declare, Function.name, hname]
  exact define_bare ⟨h.scopes, h.functions + 1⟩ s declaration.name.lexeme
    (.function ⟨h.functions, declaration, s⟩)

end Heap

end TreeWalk

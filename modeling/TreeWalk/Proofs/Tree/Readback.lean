import TreeWalk.Proofs.Session.Layout
import TreeWalk.Proofs.Tree.Spelling

/-!
Trees read back from their texts. A tree without strings whose numbers are finite can be read back
from its form, up to the lines of its tokens: the head of a list says which node it is, and the
words are tokens again. So no two such trees have the same text.
-/

namespace TreeWalk

open Grammar Number Scan

/-! ## Literals of trees -/

mutual

def Expr.literals : Expr → List Literal
  | .literal value => [value]
  | .group inner => inner.literals
  | .unary _ right => right.literals
  | .binary left _ right => left.literals ++ right.literals
  | .logical left _ right => left.literals ++ right.literals
  | .reference _ => []
  | .assign _ value => value.literals
  | .call callee _ arguments => callee.literals ++ Expr.literalsAll arguments

def Expr.literalsAll : List Expr → List Literal
  | [] => []
  | e :: es => e.literals ++ Expr.literalsAll es

end

def Expr.literalsOption : Option Expr → List Literal
  | none => []
  | some e => e.literals

mutual

def Stmt.literals : Stmt → List Literal
  | .expression value => value.literals
  | .print value => value.literals
  | .varDecl _ initial => Expr.literalsOption initial
  | .block body => Stmt.literalsAll body
  | .ifElse condition thenBranch none => condition.literals ++ thenBranch.literals
  | .ifElse condition thenBranch (some elseBranch) =>
    condition.literals ++ thenBranch.literals ++ elseBranch.literals
  | .whileLoop condition body => condition.literals ++ body.literals
  | .funDecl declaration => declaration.literals
  | .returnValue _ value => Expr.literalsOption value
  | .classDecl _ superclass methods =>
    Expr.literalsOption superclass ++ FunDecl.literalsAll methods

def Stmt.literalsAll : List Stmt → List Literal
  | [] => []
  | s :: ss => s.literals ++ Stmt.literalsAll ss

def FunDecl.literals : FunDecl → List Literal
  | ⟨_, _, body⟩ => Stmt.literalsAll body

def FunDecl.literalsAll : List FunDecl → List Literal
  | [] => []
  | d :: ds => d.literals ++ FunDecl.literalsAll ds

end

/-! ## Trees from their forms -/

namespace Form

/-- A literal or a name. -/
def leaf (text : String) : Expr :=
  match literal? (.ofText text) with
  | some value => .literal value
  | none => .reference (.ofText text)

/-- Words join two operands logically, other operators do not. -/
def joining (operator : Token) (left right : Expr) : Expr :=
  match operator.kind with
  | .symbol (.keyword _) => .logical left operator right
  | _ => .binary left operator right

/-- The expression that a list is, from its head and the expressions behind it. -/
def node? (head : String) (items : List Expr) : Option Expr :=
  match head, items with
  | "group", [inner] => some (.group inner)
  | "call", callee :: arguments => some (.call callee (.ofText ")") arguments)
  | "=", [.reference name, value] => some (.assign name value)
  | operator, [right] => some (.unary (.ofText operator) right)
  | operator, [left, right] => some (joining (.ofText operator) left right)
  | _, _ => none

mutual

def expr? : Form → Option Expr
  | .word text => some (leaf text)
  | .signature _ _ => none
  | .list head items => (exprs? items).bind (node? head)

def exprs? : List Form → Option (List Expr)
  | [] => some []
  | f :: fs => do return (← f.expr?) :: (← exprs? fs)

end

mutual

/-- The statement that a form is. What stands behind its head tells its optional parts. -/
def stmt? : Form → Option Stmt
  | .list ";" [value] => do return .expression (← value.expr?)
  | .list "print" [value] => do return .print (← value.expr?)
  | .list "var" [.word name] => some (.varDecl (.ofText name) none)
  | .list "var" [.word name, initial] => do return .varDecl (.ofText name) (← initial.expr?)
  | .list "block" body => do return .block (← stmts? body)
  | .list "if" [condition, thenBranch] => do
    return .ifElse (← condition.expr?) (← thenBranch.stmt?) none
  | .list "if" [condition, thenBranch, elseBranch] => do
    return .ifElse (← condition.expr?) (← thenBranch.stmt?) (some (← elseBranch.stmt?))
  | .list "while" [condition, body] => do return .whileLoop (← condition.expr?) (← body.stmt?)
  | .list "fun" (.signature name params :: body) => do
    return .funDecl ⟨.ofText name, params.map .ofText, ← stmts? body⟩
  | .list "return" [] => some (.returnValue (.ofText "return") none)
  | .list "return" [value] => do return .returnValue (.ofText "return") (some (← value.expr?))
  | .list "class" (.word name :: .word "<" :: superclass :: methods) => do
    return .classDecl (.ofText name) (some (← superclass.expr?)) (← methods? methods)
  | .list "class" (.word name :: methods) => do
    return .classDecl (.ofText name) none (← methods? methods)
  | _ => none

def stmts? : List Form → Option (List Stmt)
  | [] => some []
  | f :: fs => do return (← f.stmt?) :: (← stmts? fs)

def methods? : List Form → Option (List FunDecl)
  | [] => some []
  | f :: fs => do return (← f.method?) :: (← methods? fs)

def method? : Form → Option FunDecl
  | .list "method" (.signature name params :: body) => do
    return ⟨.ofText name, params.map .ofText, ← stmts? body⟩
  | _ => none

end

end Form

/-! ## Reading back -/

theorem Expr.mem_literalsAll {es : List Expr} {v : Literal} :
    v ∈ literalsAll es ↔ ∃ e ∈ es, v ∈ e.literals := by
  induction es with
  | nil => simp [literalsAll]
  | cons e es ih => simp [literalsAll, ih]

/-- The form of a tree is sound, and the tree is read back from it. -/
structure Expr.ReadsBack (e : Expr) : Prop where
  sound : e.form.Sound
  tree : e.form.expr? = some e.bare

theorem Expr.ReadsBack.all {es : List Expr} (h : ∀ e ∈ es, e.ReadsBack) :
    (∀ f ∈ forms es, f.Sound) ∧ Form.exprs? (forms es) = some (es.map bare) := by
  induction es with
  | nil => exact ⟨List.forall_mem_nil _, rfl⟩
  | cons e es ih =>
    obtain ⟨hfirst, hmore⟩ := List.forall_mem_cons.1 h
    obtain ⟨hsound, htrees⟩ := ih hmore
    refine ⟨List.forall_mem_cons.2 ⟨hfirst.sound, hsound⟩, ?_⟩
    rw [forms, Form.exprs?, hfirst.tree, htrees]
    rfl

theorem Token.IsSpelledName.isWord {t : Token} (h : t.IsSpelledName) : Form.IsWord t.lexeme :=
  h.1.isWord h.2 (by decide)

theorem Token.IsSpelledName.leaf {t : Token} (h : t.IsSpelledName) :
    Form.leaf t.lexeme = .reference t.bare := by
  have hkind : t.bare.kind = .symbol .identifier := h.2
  rw [Form.leaf, h.1.ofText, literal?, hkind]

theorem node?_unary {operator : String} (hgroup : operator ≠ "group") (hcall : operator ≠ "call")
    (right : Expr) : Form.node? operator [right] = some (.unary (.ofText operator) right) := by
  unfold Form.node?
  split <;> simp_all

theorem node?_joining {operator : String} (hcall : operator ≠ "call") (hequal : operator ≠ "=")
    (left right : Expr) :
    Form.node? operator [left, right] = some (Form.joining (.ofText operator) left right) := by
  unfold Form.node?
  split <;> simp_all

theorem rule_group : Rule "group".toList (.token (.symbol .identifier)) := by
  have hchars : "group".toList = ['g', 'r', 'o', 'u', 'p'] := by decide
  rw [hchars]
  exact word_rule (c := 'g') (by decide) ['r', 'o', 'u', 'p']

theorem rule_call : Rule "call".toList (.token (.symbol .identifier)) := by
  have hchars : "call".toList = ['c', 'a', 'l', 'l'] := by decide
  rw [hchars]
  exact word_rule (c := 'c') (by decide) ['a', 'l', 'l']

/-- The lexeme of an operator heads nothing else. -/
theorem Token.Spelled.operator {t : Token} (h : t.Spelled) {symbols : List Symbol}
    (ht : t.OneOf symbols)
    (hsymbols : symbols ⊆ unaryOperators ++ (Expr.logicalOperators ++ Expr.binaryOperators)) :
    Form.IsWord t.lexeme ∧ t.lexeme ≠ "group" ∧ t.lexeme ≠ "call" ∧ t.lexeme ≠ "=" := by
  obtain ⟨s, hs, hkind⟩ := ht
  have hother : ∀ s ∈ unaryOperators ++ (Expr.logicalOperators ++ Expr.binaryOperators),
      s ∉ [Symbol.leftParen, .rightParen] ∧ s ≠ .identifier ∧ s ≠ .equal := by decide
  obtain ⟨hparen, hidentifier, hequal⟩ := hother s (hsymbols hs)
  have hmark : Rule "=".toList (.token (.symbol .equal)) := .mark (by decide)
  exact ⟨h.isWord hkind hparen, h.lexeme_ne hkind rule_group hidentifier,
    h.lexeme_ne hkind rule_call hidentifier, h.lexeme_ne hkind hmark hequal⟩

theorem node?_group (inner : Expr) : Form.node? "group" [inner] = some (.group inner) := rfl

theorem node?_call (callee : Expr) (arguments : List Expr) :
    Form.node? "call" (callee :: arguments) = some (.call callee (.ofText ")") arguments) := rfl

theorem node?_assign (name : Token) (value : Expr) :
    Form.node? "=" [.reference name, value] = some (.assign name value) := rfl

theorem joining_logical {operator : Token} (h : operator.OneOf Expr.logicalOperators)
    (left right : Expr) :
    Form.joining operator.bare left right = .logical left operator.bare right := by
  have hall : ∀ s ∈ Expr.logicalOperators, s = .keyword .andWord ∨ s = .keyword .orWord := by
    decide
  obtain ⟨s, hs, hkind⟩ := h
  rw [Form.joining, Token.kind_bare, hkind]
  rcases hall s hs with rfl | rfl <;> rfl

theorem joining_binary {operator : Token} (h : operator.OneOf Expr.binaryOperators)
    (left right : Expr) :
    Form.joining operator.bare left right = .binary left operator.bare right := by
  have hall : ∀ word, .keyword word ∉ Expr.binaryOperators := by
    intro word
    cases word <;> decide
  obtain ⟨s, hs, hkind⟩ := h
  rw [Form.joining, Token.kind_bare, hkind]
  split
  · next word hword =>
    cases hword
    exact absurd hs (hall word)
  · rfl

theorem Token.Spelled.ofText_paren {t : Token} (h : t.Spelled)
    (hkind : t.kind = .symbol .rightParen) : Token.ofText ")" = t.bare := by
  have hlexeme : t.lexeme.toList = ")".toList := by
    unfold Spelled at h
    rw [hkind] at h
    generalize t.lexeme.toList = text at h
    cases h with
    | mark hmark => simpa [marks] using hmark
  rw [← String.toList_inj.1 hlexeme, h.ofText]

theorem Token.Spelled.ofText_return {t : Token} (h : t.Spelled)
    (hkind : t.kind = .symbol (.keyword .returnWord)) : Token.ofText "return" = t.bare := by
  have hlexeme : t.lexeme.toList = "return".toList := by
    unfold Spelled at h
    rw [hkind] at h
    generalize t.lexeme.toList = text at h
    cases h with
    | mark hmark => simp [marks] at hmark
    | keyword => rfl
  rw [← String.toList_inj.1 hlexeme, h.ofText]

/-- Two operands that are read back, with an operator that joins them. -/
theorem Expr.ReadsBack.joined {left right : Expr} {operator : Token} (hleft : left.ReadsBack)
    (hright : right.ReadsBack) (hspelled : operator.Spelled) {symbols : List Symbol}
    (hoperator : operator.OneOf symbols)
    (hsymbols : symbols ⊆ unaryOperators ++ (logicalOperators ++ binaryOperators)) :
    (Form.list operator.lexeme [left.form, right.form]).Sound ∧
      (Form.list operator.lexeme [left.form, right.form]).expr? =
        some (Form.joining operator.bare left.bare right.bare) := by
  obtain ⟨hword, _, hcall, hequal⟩ := hspelled.operator hoperator hsymbols
  refine ⟨.two hword hleft.sound hright.sound, ?_⟩
  simp [Form.expr?, Form.exprs?, hleft.tree, hright.tree, node?_joining hcall hequal,
    hspelled.ofText]

theorem Expr.Spelled.readsBack {e : Expr} (h : e.Spelled) :
    (∀ v ∈ e.literals, v.Legible) → e.ReadsBack := by
  induction h with
  | literal hsource =>
    intro hlegible
    obtain ⟨hword, hvalue⟩ := (hlegible _ (List.mem_singleton_self _)).token hsource
    refine ⟨.word hword, ?_⟩
    rw [form, Form.expr?, Form.leaf, hvalue]
    rfl
  | group _ ih =>
    intro hlegible
    have hinner := ih hlegible
    have hgroup : Form.IsWord "group" := by decide
    refine ⟨.one hgroup hinner.sound, ?_⟩
    simp [form, Form.expr?, Form.exprs?, hinner.tree, node?_group, bare]
  | reference hname =>
    intro _
    exact ⟨.word hname.isWord, by rw [form, Form.expr?, hname.leaf]; rfl⟩
  | assign hname _ ih =>
    intro hlegible
    have hvalue := ih hlegible
    have hequal : Form.IsWord "=" := by decide
    refine ⟨.two hequal (.word hname.isWord) hvalue.sound, ?_⟩
    simp [form, Form.expr?, Form.exprs?, hname.leaf, hvalue.tree, node?_assign, bare]
  | unary hspelled hoperator _ ih =>
    intro hlegible
    have hright := ih hlegible
    obtain ⟨hword, hgroup, hcall, _⟩ := hspelled.operator hoperator (by simp)
    refine ⟨.one hword hright.sound, ?_⟩
    simp [form, Form.expr?, Form.exprs?, hright.tree, node?_unary hgroup hcall, hspelled.ofText,
      bare]
  | logical _ hspelled hoperator _ ihleft ihright =>
    intro hlegible
    rw [literals, List.forall_mem_append] at hlegible
    obtain ⟨hsound, htree⟩ :=
      (ihleft hlegible.1).joined (ihright hlegible.2) hspelled hoperator (by simp)
    exact ⟨hsound, htree.trans (by rw [joining_logical hoperator, bare])⟩
  | binary _ hspelled hoperator _ ihleft ihright =>
    intro hlegible
    rw [literals, List.forall_mem_append] at hlegible
    obtain ⟨hsound, htree⟩ :=
      (ihleft hlegible.1).joined (ihright hlegible.2) hspelled hoperator (by simp)
    exact ⟨hsound, htree.trans (by rw [joining_binary hoperator, bare])⟩
  | call _ hparen hkind _ ihcallee iharguments =>
    intro hlegible
    rw [literals, List.forall_mem_append] at hlegible
    have hcallee := ihcallee hlegible.1
    obtain ⟨hsound, htrees⟩ := ReadsBack.all fun e he =>
      iharguments e he fun v hv => hlegible.2 v (mem_literalsAll.2 ⟨e, he, hv⟩)
    have hcall : Form.IsWord "call" := by decide
    refine ⟨.list hcall (List.forall_mem_cons.2 ⟨hcallee.sound, hsound⟩), ?_⟩
    simp [form, Form.expr?, Form.exprs?, hcallee.tree, htrees, node?_call,
      hparen.ofText_paren hkind, bare]

structure Stmt.ReadsBack (s : Stmt) : Prop where
  sound : s.form.Sound
  tree : s.form.stmt? = some s.bare

theorem signature_readsBack {name : Token} {params : List Token} (hname : name.IsSpelledName)
    (hparams : ∀ p ∈ params, p.IsSpelledName) :
    (Form.signature name.lexeme (params.map (·.lexeme))).Sound ∧
      (params.map (·.lexeme)).map Token.ofText = params.map Token.bare := by
  constructor
  · refine .signature hname.isWord fun p hp => ?_
    obtain ⟨param, hparam, rfl⟩ := List.mem_map.1 hp
    exact (hparams param hparam).isWord
  · rw [List.map_map]
    exact List.map_congr_left fun p hp => (hparams p hp).1.ofText

/-- A class without a superclass: its methods are lists, and none of them is the word `<`. -/
theorem stmt?_class (name : String) (methods : List FunDecl) :
    Form.stmt? (.list "class" (.word name :: FunDecl.forms methods)) =
      (Form.methods? (FunDecl.forms methods)).bind fun trees =>
        some (.classDecl (.ofText name) none trees) := by
  cases methods with
  | nil => simp [FunDecl.forms, Form.stmt?]
  | cons d ds =>
    obtain ⟨method, params, body⟩ := d
    simp [FunDecl.forms, FunDecl.form, Form.stmt?]

mutual

theorem Stmt.Spelled.readsBack : ∀ s : Stmt, s.Spelled → (∀ v ∈ s.literals, v.Legible) →
    s.ReadsBack
  | .expression value, .expression hvalue, hlegible => by
    have hvalue := hvalue.readsBack hlegible
    refine ⟨.one (by decide) hvalue.sound, ?_⟩
    simp [Stmt.form, Form.stmt?, hvalue.tree, Stmt.bare]
  | .print value, .print hvalue, hlegible => by
    have hvalue := hvalue.readsBack hlegible
    refine ⟨.one (by decide) hvalue.sound, ?_⟩
    simp [Stmt.form, Form.stmt?, hvalue.tree, Stmt.bare]
  | .varDecl name none, .varDecl hname _, _ => by
    refine ⟨.one (by decide) (.word hname.isWord), ?_⟩
    simp [Stmt.form, Expr.formOption, Form.stmt?, hname.1.ofText, Stmt.bare]
  | .varDecl name (some initial), .varDecl hname hinitial, hlegible => by
    have hinitial := (hinitial initial rfl).readsBack hlegible
    refine ⟨.two (by decide) (.word hname.isWord) hinitial.sound, ?_⟩
    simp [Stmt.form, Expr.formOption, Form.stmt?, hname.1.ofText, hinitial.tree, Stmt.bare]
  | .block body, .block hbody, hlegible => by
    obtain ⟨hsound, htrees⟩ := Stmt.Spelled.readsBackAll body hbody hlegible
    refine ⟨.list (by decide) hsound, ?_⟩
    simp [Stmt.form, Form.stmt?, htrees, Stmt.bare]
  | .ifElse condition thenBranch none, .ifElse hcondition hthen _, hlegible => by
    rw [Stmt.literals, List.forall_mem_append] at hlegible
    have hcondition := hcondition.readsBack hlegible.1
    have hthen := Stmt.Spelled.readsBack thenBranch hthen hlegible.2
    refine ⟨.two (by decide) hcondition.sound hthen.sound, ?_⟩
    simp [Stmt.form, Form.stmt?, hcondition.tree, hthen.tree, Stmt.bare]
  | .ifElse condition thenBranch (some elseBranch), .ifElse hcondition hthen helse, hlegible => by
    rw [Stmt.literals, List.forall_mem_append, List.forall_mem_append] at hlegible
    have hcondition := hcondition.readsBack hlegible.1.1
    have hthen := Stmt.Spelled.readsBack thenBranch hthen hlegible.1.2
    have helse := Stmt.Spelled.readsBack elseBranch (helse elseBranch rfl) hlegible.2
    refine ⟨.list (by decide) (List.forall_mem_cons.2 ⟨hcondition.sound,
      List.forall_mem_cons.2 ⟨hthen.sound, List.forall_mem_singleton.2 helse.sound⟩⟩), ?_⟩
    simp [Stmt.form, Form.stmt?, hcondition.tree, hthen.tree, helse.tree, Stmt.bare]
  | .whileLoop condition body, .whileLoop hcondition hbody, hlegible => by
    rw [Stmt.literals, List.forall_mem_append] at hlegible
    have hcondition := hcondition.readsBack hlegible.1
    have hbody := Stmt.Spelled.readsBack body hbody hlegible.2
    refine ⟨.two (by decide) hcondition.sound hbody.sound, ?_⟩
    simp [Stmt.form, Form.stmt?, hcondition.tree, hbody.tree, Stmt.bare]
  | .funDecl ⟨name, params, body⟩, .funDecl (.mk hname hparams hbody), hlegible => by
    obtain ⟨hsound, htrees⟩ := Stmt.Spelled.readsBackAll body hbody hlegible
    obtain ⟨hsignature, hnames⟩ := signature_readsBack hname hparams
    refine ⟨.list (by decide) (List.forall_mem_cons.2 ⟨hsignature, hsound⟩), ?_⟩
    simp [Stmt.form, FunDecl.form, Form.stmt?, htrees, hname.1.ofText, hnames, Stmt.bare,
      FunDecl.bare]
  | .returnValue keyword none, .returnValue hspelled hkind _, _ => by
    refine ⟨.list (by decide) (List.forall_mem_nil _), ?_⟩
    simp [Stmt.form, Expr.formOption, Form.stmt?, hspelled.ofText_return hkind, Stmt.bare]
  | .returnValue keyword (some value), .returnValue hspelled hkind hvalue, hlegible => by
    have hvalue := (hvalue value rfl).readsBack hlegible
    refine ⟨.one (by decide) hvalue.sound, ?_⟩
    simp [Stmt.form, Expr.formOption, Form.stmt?, hspelled.ofText_return hkind, hvalue.tree,
      Stmt.bare]
  | .classDecl name none methods, .classDecl hname _ hmethods, hlegible => by
    obtain ⟨hsound, htrees⟩ := FunDecl.Spelled.readsBackAll methods hmethods hlegible
    refine ⟨.list (by decide) (List.forall_mem_cons.2 ⟨.word hname.isWord, hsound⟩), ?_⟩
    rw [Stmt.form, stmt?_class, htrees, hname.1.ofText]
    simp [Stmt.bare]
  | .classDecl name (some superclass) methods, .classDecl hname hsuperclass hmethods, hlegible => by
    rw [Stmt.literals, List.forall_mem_append] at hlegible
    have hsuperclass := (hsuperclass superclass rfl).readsBack hlegible.1
    obtain ⟨hsound, htrees⟩ := FunDecl.Spelled.readsBackAll methods hmethods hlegible.2
    have hinherits : ∀ f ∈ .word "<" :: superclass.form :: FunDecl.forms methods, f.Sound :=
      List.forall_mem_cons.2 ⟨.word (by decide), List.forall_mem_cons.2 ⟨hsuperclass.sound, hsound⟩⟩
    refine ⟨.list (by decide) (List.forall_mem_cons.2 ⟨.word hname.isWord, hinherits⟩), ?_⟩
    simp [Stmt.form, Form.stmt?, hsuperclass.tree, htrees, hname.1.ofText, Stmt.bare]

theorem Stmt.Spelled.readsBackAll : ∀ ss : List Stmt, (∀ s ∈ ss, s.Spelled) →
    (∀ v ∈ Stmt.literalsAll ss, v.Legible) →
    (∀ f ∈ Stmt.forms ss, f.Sound) ∧ Form.stmts? (Stmt.forms ss) = some (ss.map Stmt.bare)
  | [], _, _ => ⟨List.forall_mem_nil _, rfl⟩
  | s :: ss, hss, hlegible => by
    rw [Stmt.literalsAll, List.forall_mem_append] at hlegible
    rw [List.forall_mem_cons] at hss
    have hfirst := Stmt.Spelled.readsBack s hss.1 hlegible.1
    obtain ⟨hsound, htrees⟩ := Stmt.Spelled.readsBackAll ss hss.2 hlegible.2
    refine ⟨List.forall_mem_cons.2 ⟨hfirst.sound, hsound⟩, ?_⟩
    simp [Stmt.forms, Form.stmts?, hfirst.tree, htrees]

theorem FunDecl.Spelled.readsBackAll : ∀ ds : List FunDecl, (∀ d ∈ ds, d.Spelled) →
    (∀ v ∈ FunDecl.literalsAll ds, v.Legible) →
    (∀ f ∈ FunDecl.forms ds, f.Sound) ∧
      Form.methods? (FunDecl.forms ds) = some (ds.map FunDecl.bare)
  | [], _, _ => ⟨List.forall_mem_nil _, rfl⟩
  | ⟨name, params, body⟩ :: ds, hds, hlegible => by
    rw [FunDecl.literalsAll, List.forall_mem_append] at hlegible
    rw [List.forall_mem_cons] at hds
    obtain ⟨⟨hname, hparams, hbody⟩, hmore⟩ := hds
    obtain ⟨hfirst, hstatements⟩ := Stmt.Spelled.readsBackAll body hbody hlegible.1
    obtain ⟨hsignature, hnames⟩ := signature_readsBack hname hparams
    obtain ⟨hsound, htrees⟩ := FunDecl.Spelled.readsBackAll ds hmore hlegible.2
    have hmethod : (Form.list "method" _).Sound :=
      .list (by decide) (List.forall_mem_cons.2 ⟨hsignature, hfirst⟩)
    refine ⟨List.forall_mem_cons.2 ⟨hmethod, hsound⟩, ?_⟩
    simp [FunDecl.forms, FunDecl.form, Form.methods?, Form.method?, hstatements, htrees,
      hname.1.ofText, hnames, FunDecl.bare]

end

/-! ## The form has no lines -/

mutual

theorem Expr.form_bare : ∀ e : Expr, e.bare.form = e.form
  | .literal _ => rfl
  | .group inner => by simp only [bare, form, inner.form_bare]
  | .unary _ right => by simp only [bare, form, right.form_bare, Token.lexeme_bare]
  | .binary left _ right => by
    simp only [bare, form, left.form_bare, right.form_bare, Token.lexeme_bare]
  | .logical left _ right => by
    simp only [bare, form, left.form_bare, right.form_bare, Token.lexeme_bare]
  | .reference _ => rfl
  | .assign _ value => by simp only [bare, form, value.form_bare, Token.lexeme_bare]
  | .call callee _ arguments => by
    simp only [bare, form, callee.form_bare, Expr.forms_bare arguments]

theorem Expr.forms_bare : ∀ es : List Expr, forms (bareAll es) = forms es
  | [] => rfl
  | e :: es => by simp only [bareAll, forms, e.form_bare, Expr.forms_bare es]

end

theorem Expr.formOption_bare (o : Option Expr) : formOption (o.map bare) = formOption o := by
  cases o with
  | none => rfl
  | some e => exact congrArg (fun f => [f]) e.form_bare

mutual

theorem Stmt.form_bare : ∀ s : Stmt, s.bare.form = s.form
  | .expression value => by simp only [Stmt.bare, Stmt.form, value.form_bare]
  | .print value => by simp only [Stmt.bare, Stmt.form, value.form_bare]
  | .varDecl _ initial => by
    simp only [Stmt.bare, Stmt.form, Expr.formOption_bare, Token.lexeme_bare]
  | .block body => by simp only [Stmt.bare, Stmt.form, Stmt.forms_bare body]
  | .ifElse condition thenBranch none => by
    simp only [Stmt.bare, Stmt.form, condition.form_bare, thenBranch.form_bare]
  | .ifElse condition thenBranch (some elseBranch) => by
    simp only [Stmt.bare, Stmt.form, condition.form_bare, thenBranch.form_bare,
      elseBranch.form_bare]
  | .whileLoop condition body => by
    simp only [Stmt.bare, Stmt.form, condition.form_bare, body.form_bare]
  | .funDecl declaration => by simp only [Stmt.bare, Stmt.form, declaration.form_bare]
  | .returnValue _ value => by simp only [Stmt.bare, Stmt.form, Expr.formOption_bare]
  | .classDecl _ none methods => by
    simp only [Stmt.bare, Option.map_none, Stmt.form, FunDecl.forms_bare methods, Token.lexeme_bare]
  | .classDecl _ (some superclass) methods => by
    simp only [Stmt.bare, Option.map_some, Stmt.form, superclass.form_bare,
      FunDecl.forms_bare methods, Token.lexeme_bare]

theorem Stmt.forms_bare : ∀ ss : List Stmt, Stmt.forms (Stmt.bareAll ss) = Stmt.forms ss
  | [] => rfl
  | s :: ss => by simp only [Stmt.bareAll, Stmt.forms, s.form_bare, Stmt.forms_bare ss]

theorem FunDecl.form_bare (head : String) : ∀ d : FunDecl, d.bare.form head = d.form head
  | ⟨name, params, body⟩ => by
    simp only [FunDecl.bare, FunDecl.form, Stmt.forms_bare body, Token.lexeme_bare, List.map_map,
      Function.comp_def]

theorem FunDecl.forms_bare : ∀ ds : List FunDecl,
    FunDecl.forms (FunDecl.bareAll ds) = FunDecl.forms ds
  | [] => rfl
  | d :: ds => by simp only [FunDecl.bareAll, FunDecl.forms, d.form_bare, FunDecl.forms_bare ds]

end

/-! ## The text of a tree -/

/-- Trees that are read back from forms with the same text are the same. -/
theorem Form.eq_of_text {α : Type} {read : Form → Option α} {f g : Form} {a b : α} (hf : f.Sound)
    (hg : g.Sound) (ha : read f = some a) (hb : read g = some b) (h : f.text = g.text) :
    a = b := by
  rw [text_injective hf hg h, hb] at ha
  exact (Option.some.inj ha).symm

theorem Expr.ReadsBack.text_eq_iff {e f : Expr} (he : e.ReadsBack) (hf : f.ReadsBack) :
    e.text = f.text ↔ e.bare = f.bare := by
  rw [e.text_eq_form, f.text_eq_form]
  constructor
  · exact Form.eq_of_text he.sound hf.sound he.tree hf.tree
  · intro h
    rw [← e.form_bare, h, f.form_bare]

theorem Stmt.ReadsBack.text_eq_iff {s t : Stmt} (hs : s.ReadsBack) (ht : t.ReadsBack) :
    s.text = t.text ↔ s.bare = t.bare := by
  rw [s.text_eq_form, t.text_eq_form]
  constructor
  · exact Form.eq_of_text hs.sound ht.sound hs.tree ht.tree
  · intro h
    rw [← s.form_bare, h, t.form_bare]

theorem program_readsBack {source : String} {s : Stmt} (hs : s ∈ (Reading.program source).tree)
    (hlegible : ∀ v ∈ s.literals, v.Legible) : s.ReadsBack :=
  Stmt.Spelled.readsBack s (program_spelled s hs) hlegible

theorem expression_readsBack {source : String} {e : Expr}
    (he : e ∈ (Reading.expression source).tree) (hlegible : ∀ v ∈ e.literals, v.Legible) :
    e.ReadsBack :=
  (expression_spelled e he).readsBack hlegible

/-- The text of a tree determines the tree up to the lines of its tokens, for the statements and
the expressions of any sources, as long as there are no strings and only finite numbers in them. -/
theorem tree_text_determines_tree {source source' : String} :
    (∀ s ∈ (Reading.program source).tree, ∀ t ∈ (Reading.program source').tree,
      (∀ v ∈ s.literals, v.Legible) → (∀ v ∈ t.literals, v.Legible) →
      (s.text = t.text ↔ s.bare = t.bare)) ∧
    ∀ e ∈ (Reading.expression source).tree, ∀ f ∈ (Reading.expression source').tree,
      (∀ v ∈ e.literals, v.Legible) → (∀ v ∈ f.literals, v.Legible) →
      (e.text = f.text ↔ e.bare = f.bare) := by
  refine ⟨fun s hs t ht hlegible hlegible' => ?_, fun e he f hf hlegible hlegible' => ?_⟩
  · exact (program_readsBack hs hlegible).text_eq_iff (program_readsBack ht hlegible')
  · exact (expression_readsBack he hlegible).text_eq_iff (expression_readsBack hf hlegible')

/-- A difference that is grouped, and one that is not. -/
def chainedMinus : String := "nil-nil-nil"

def groupedMinus : String := "nil-(nil-nil)"

theorem reading_chainedMinus : (Reading.expression chainedMinus).tree =
    some (.binary (.binary (.literal .nil) ⟨.symbol .minus, "-", 1⟩ (.literal .nil))
      ⟨.symbol .minus, "-", 1⟩ (.literal .nil)) := by
  have hchars : chainedMinus.toList =
      ['n', 'i', 'l', '-', 'n', 'i', 'l', '-', 'n', 'i', 'l'] := by decide
  rw [Reading.expression, Reading.ofSource, Scan.tokens, Scan.items, hchars]
  rfl

theorem reading_groupedMinus : (Reading.expression groupedMinus).tree =
    some (.binary (.literal .nil) ⟨.symbol .minus, "-", 1⟩
      (.group (.binary (.literal .nil) ⟨.symbol .minus, "-", 1⟩ (.literal .nil)))) := by
  have hchars : groupedMinus.toList =
      ['n', 'i', 'l', '-', '(', 'n', 'i', 'l', '-', 'n', 'i', 'l', ')'] := by decide
  rw [Reading.expression, Reading.ofSource, Scan.tokens, Scan.items, hchars]
  rfl

/-- One statement on two layouts has one text and is the same tree up to lines; two groupings have
two texts and are two trees. -/
theorem groupings_distinguished :
    (∃ s ∈ (Reading.program Session.calling).tree, ∃ t ∈ (Reading.program Session.spread).tree,
      (∀ v ∈ s.literals, v.Legible) ∧ (∀ v ∈ t.literals, v.Legible) ∧
      s.text = "(; (call nil))" ∧ s.text = t.text ∧ s.bare = t.bare) ∧
    ∃ e ∈ (Reading.expression chainedMinus).tree, ∃ f ∈ (Reading.expression groupedMinus).tree,
      (∀ v ∈ e.literals, v.Legible) ∧ (∀ v ∈ f.literals, v.Legible) ∧
      e.text = "(- (- nil nil) nil)" ∧ f.text = "(- nil (group (- nil nil)))" ∧
      e.bare ≠ f.bare := by
  have hspread : (Reading.program Session.spread).tree =
      [.expression (.call (.literal .nil) ⟨.symbol .rightParen, ")", 3⟩ [])] := by
    rw [Reading.program, Reading.ofSource, Scan.tokens, Session.items_spread]
    rfl
  have hlegible : ∀ v ∈ [Literal.nil], v.Legible := List.forall_mem_singleton.2 trivial
  have hlegible' : ∀ v ∈ [Literal.nil, .nil, .nil], v.Legible := by simp [Literal.Legible]
  have hmem : ∀ {s : Stmt} {ss : List Stmt}, ss = [s] → s ∈ ss :=
    fun h => h ▸ List.mem_singleton_self _
  constructor
  · have hs := hmem (congrArg Reading.tree Session.reading_calling)
    have ht := hmem hspread
    have hsame := tree_text_determines_tree.1 _ hs _ ht hlegible hlegible
    exact ⟨_, hs, _, ht, hlegible, hlegible, rfl, rfl, hsame.1 rfl⟩
  · have hdiffer := tree_text_determines_tree.2 _ reading_chainedMinus _ reading_groupedMinus
      hlegible' hlegible'
    refine ⟨_, reading_chainedMinus, _, reading_groupedMinus, hlegible', hlegible', rfl, rfl, ?_⟩
    rw [Ne, ← hdiffer]
    decide

end TreeWalk

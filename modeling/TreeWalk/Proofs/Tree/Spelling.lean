import TreeWalk.Proofs.Grammar.Shape
import TreeWalk.Proofs.Lines.Bare
import TreeWalk.Proofs.Session.Listings
import TreeWalk.Proofs.Session.Positions
import TreeWalk.Proofs.Tree.Forms

/-!
The tokens of trees from their texts. A token of a source is what the lexical rules make of its
lexeme, and so is the token of a literal whose text is a number again. A tree that is parsed has
only such tokens, each of a kind that its place needs.
-/

namespace TreeWalk

open Grammar Number Scan

/-! ## Tokens from their texts -/

/-- The token that a text is, on no line. -/
def Token.ofText (text : String) : Token :=
  match text.toList with
  | [] => .endOfInput 0
  | c :: cs =>
    match (cut c cs).piece with
    | .token kind => ⟨kind, text, 0⟩
    | _ => .endOfInput 0

/-- The lexeme is one that the lexical rules make such a token. -/
def Token.Spelled (t : Token) : Prop := Rule t.lexeme.toList (.token t.kind)

theorem Token.ofText_of_rule {text : String} {kind : Kind} (h : Rule text.toList (.token kind)) :
    ofText text = ⟨kind, text, 0⟩ := by
  obtain ⟨c, cs, htext, hpiece⟩ := cut_of_rule h
  unfold ofText
  rw [htext]
  dsimp only
  rw [hpiece]

theorem Token.Spelled.ofText {t : Token} (h : t.Spelled) : ofText t.lexeme = t.bare :=
  ofText_of_rule h

/-- The lexeme tells tokens of different symbols apart. -/
theorem Token.Spelled.lexeme_ne {t : Token} (h : t.Spelled) {s s' : Symbol}
    (hkind : t.kind = .symbol s) {text : String} (htext : Rule text.toList (.token (.symbol s')))
    (hne : s ≠ s') : t.lexeme ≠ text := by
  rintro rfl
  have hsame := Piece.token.inj (Rule.unique h htext)
  rw [hkind] at hsame
  exact hne (Kind.symbol.inj hsame)

theorem isDelimiter_of_isDigit {c : Char} (h : isDigit c) : Form.isDelimiter c = false :=
  Form.isDelimiter_eq_false (by decide) h

theorem isDelimiter_of_isWordPart {c : Char} (h : isWordPart c) : Form.isDelimiter c = false :=
  Form.isDelimiter_eq_false (by decide) h

theorem isDelimiter_of_numeral {text : List Char} {x : ℚ} (h : Numeral text x) :
    text ≠ [] ∧ ∀ c ∈ text, Form.isDelimiter c = false := by
  cases h with
  | whole hne hdigits => exact ⟨hne, fun c hc => isDelimiter_of_isDigit (hdigits c hc)⟩
  | point hne hleft _ hright =>
    refine ⟨List.append_ne_nil_of_left_ne_nil hne _, ?_⟩
    rw [List.forall_mem_append, List.forall_mem_cons]
    exact ⟨fun c hc => isDelimiter_of_isDigit (hleft c hc), rfl,
      fun c hc => isDelimiter_of_isDigit (hright c hc)⟩

theorem isWord_of_letter {c : Char} {cs : List Char} (hc : isLetter c)
    (hcs : ∀ d ∈ cs, isWordPart d) : Form.IsWord (String.ofList (c :: cs)) := by
  refine Form.isWord_ofList (List.cons_ne_nil _ _) (List.forall_mem_cons.2 ⟨?_, ?_⟩)
  · exact isDelimiter_of_isWordPart (by simp [isWordPart, hc])
  · exact fun d hd => isDelimiter_of_isWordPart (hcs d hd)

theorem isWord_of_symbol {text : List Char} {s : Symbol} (h : Rule text (.token (.symbol s)))
    (hs : s ∉ [Symbol.leftParen, .rightParen]) : Form.IsWord (String.ofList text) := by
  cases h with
  | mark hmark =>
    rcases mem_marks.1 hmark with ⟨c, rfl, hsingle⟩ | ⟨c, rfl, hpair⟩
    · refine Form.isWord_ofList (List.cons_ne_nil _ _) (List.forall_mem_singleton.2 ?_)
      unfold single? at hsingle
      split at hsingle <;> cases hsingle <;> first | rfl | exact absurd (by decide) hs
    · refine Form.isWord_ofList (List.cons_ne_nil _ _) (List.forall_mem_cons.2 ⟨?_, ?_⟩)
      · unfold withEqual? at hpair
        split at hpair <;> first | rfl | cases hpair
      · exact List.forall_mem_singleton.2 rfl
  | keyword word =>
    obtain ⟨c, cs, hspelling, hc, hcs⟩ := keyword_word word
    rw [hspelling]
    exact isWord_of_letter hc hcs
  | identifier hc hcs _ => exact isWord_of_letter hc hcs

theorem Token.Spelled.isWord {t : Token} (h : t.Spelled) {s : Symbol} (hkind : t.kind = .symbol s)
    (hs : s ∉ [Symbol.leftParen, .rightParen]) : Form.IsWord t.lexeme := by
  unfold Spelled at h
  rw [hkind] at h
  have hword := isWord_of_symbol h hs
  rwa [String.ofList_toList] at hword

/-! ## Literals -/

/-- A tree text shows a string without its quotes, so that it may look like anything, and shows
different numbers that are not finite alike. -/
def Literal.Legible : Literal → Prop
  | number value => value.isFinite = true
  | string _ => False
  | bool _ => True
  | nil => True

/-- The text of a legible literal is a token again, which writes this literal. -/
theorem Literal.Legible.token {value : Literal} (h : value.Legible)
    (hsource : IsLiteral Token.Spelled value) :
    Form.IsWord value.text ∧ literal? (.ofText value.text) = some value := by
  have hkeyword : ∀ (word : Keyword) (value : Literal), word.spelling = value.text →
      literal? ⟨.symbol (.keyword word), value.text, 0⟩ = some value →
      Form.IsWord value.text ∧ literal? (.ofText value.text) = some value := by
    intro word value htext hvalue
    have hrule : Rule value.text.toList (.token (.symbol (.keyword word))) :=
      htext ▸ .keyword word
    have hword := isWord_of_symbol hrule (by cases word <;> decide)
    rw [String.ofList_toList] at hword
    exact ⟨hword, by rw [Token.ofText_of_rule hrule, hvalue]⟩
  cases value with
  | number x =>
    obtain hno | ⟨t, ht, hliteral⟩ := hsource
    · cases hno
    have hkind : t.kind = .number x := by
      unfold literal? at hliteral
      split at hliteral <;> cases hliteral
      assumption
    have hx := (isFinite_iff x).1 h
    have hsign : Number.isNegative x = false := by
      unfold Token.Spelled at ht
      rw [hkind] at ht
      generalize t.lexeme.toList = text at ht
      cases ht with
      | number _ hrounds => exact isNegative_ofCode false hrounds.bounded
    obtain ⟨⟨v, hnumeral, hrounds⟩, _⟩ := inTree_shown hsign hx
    have hrule : Rule (Number.inTree x) (.token (.number x)) := by
      have hrule := Rule.number hnumeral hrounds
      rwa [← hsign, ofCode_code] at hrule
    obtain ⟨hne, hplain⟩ := isDelimiter_of_numeral hnumeral
    refine ⟨Form.isWord_ofList hne hplain, ?_⟩
    rw [Token.ofText_of_rule (by rwa [Literal.text, String.toList_ofList])]
    rfl
  | string contents => cases h
  | bool value =>
    cases value with
    | true => exact hkeyword .trueWord _ rfl rfl
    | false => exact hkeyword .falseWord _ rfl rfl
  | nil => exact hkeyword .nilWord _ rfl rfl

/-! ## What trees are made of -/

def Token.IsSpelledName (t : Token) : Prop := t.Spelled ∧ t.IsName

/-- The tokens of an expression are spelled, and have the kinds that their places need. -/
inductive Expr.Spelled : Expr → Prop
  | literal {value : Literal} : IsLiteral Token.Spelled value → Spelled (.literal value)
  | group {inner : Expr} : Spelled inner → Spelled (.group inner)
  | reference {name : Token} : name.IsSpelledName → Spelled (.reference name)
  | assign {name : Token} {value : Expr} : name.IsSpelledName → Spelled value →
    Spelled (.assign name value)
  | unary {operator : Token} {right : Expr} : operator.Spelled →
    operator.OneOf unaryOperators → Spelled right → Spelled (.unary operator right)
  | logical {left : Expr} {operator : Token} {right : Expr} : Spelled left → operator.Spelled →
    operator.OneOf Expr.logicalOperators → Spelled right → Spelled (.logical left operator right)
  | binary {left : Expr} {operator : Token} {right : Expr} : Spelled left → operator.Spelled →
    operator.OneOf Expr.binaryOperators → Spelled right → Spelled (.binary left operator right)
  | call {callee : Expr} {paren : Token} {arguments : List Expr} : Spelled callee →
    paren.Spelled → paren.kind = .symbol .rightParen → (∀ e ∈ arguments, Spelled e) →
    Spelled (.call callee paren arguments)

mutual

inductive Stmt.Spelled : Stmt → Prop
  | expression {value : Expr} : value.Spelled → Stmt.Spelled (.expression value)
  | print {value : Expr} : value.Spelled → Stmt.Spelled (.print value)
  | varDecl {name : Token} {initial : Option Expr} : name.IsSpelledName →
    (∀ e ∈ initial, e.Spelled) → Stmt.Spelled (.varDecl name initial)
  | block {body : List Stmt} : (∀ s ∈ body, Stmt.Spelled s) → Stmt.Spelled (.block body)
  | ifElse {condition : Expr} {thenBranch : Stmt} {elseBranch : Option Stmt} :
    condition.Spelled → Stmt.Spelled thenBranch → (∀ s ∈ elseBranch, Stmt.Spelled s) →
    Stmt.Spelled (.ifElse condition thenBranch elseBranch)
  | whileLoop {condition : Expr} {body : Stmt} : condition.Spelled → Stmt.Spelled body →
    Stmt.Spelled (.whileLoop condition body)
  | funDecl {declaration : FunDecl} : FunDecl.Spelled declaration →
    Stmt.Spelled (.funDecl declaration)
  | returnValue {keyword : Token} {value : Option Expr} : keyword.Spelled →
    keyword.kind = .symbol (.keyword .returnWord) → (∀ e ∈ value, e.Spelled) →
    Stmt.Spelled (.returnValue keyword value)
  | classDecl {name : Token} {superclass : Option Expr} {methods : List FunDecl} :
    name.IsSpelledName → (∀ e ∈ superclass, e.Spelled) → (∀ d ∈ methods, FunDecl.Spelled d) →
    Stmt.Spelled (.classDecl name superclass methods)

inductive FunDecl.Spelled : FunDecl → Prop
  | mk {name : Token} {params : List Token} {body : List Stmt} : name.IsSpelledName →
    (∀ p ∈ params, p.IsSpelledName) → (∀ s ∈ body, Stmt.Spelled s) →
    FunDecl.Spelled ⟨name, params, body⟩

end

/-- All that is parsed from spelled tokens is spelled. -/
theorem spelled_building :
    Building Token.Spelled (fun _ => Expr.Spelled) Stmt.Spelled FunDecl.Spelled where
  loosen _ he := he
  literal := .literal
  group := .group
  reference hspelled hname := .reference ⟨hspelled, hname⟩
  assign hname hvalue := by
    cases hname with
    | reference hname => exact .assign hname hvalue
  unary := .unary
  node := by
    intro tier _ _ _ _ hleft hspelled hoperator hright _
    have hlogical : tier.operators ⊆ Expr.logicalOperators → Expr.Spelled (.logical _ _ _) :=
      fun hsub => .logical hleft hspelled (hoperator.mono hsub) hright
    have hbinary : tier.operators ⊆ Expr.binaryOperators → Expr.Spelled (.binary _ _ _) :=
      fun hsub => .binary hleft hspelled (hoperator.mono hsub) hright
    cases tier with
    | disjunction => exact hlogical (by decide)
    | conjunction => exact hlogical (by decide)
    | _ => exact hbinary (by decide)
  call := .call
  expression := .expression
  print := .print
  varDecl hspelled hname := .varDecl ⟨hspelled, hname⟩
  block := .block
  ifElse := .ifElse
  whileLoop := .whileLoop
  funDecl := .funDecl
  returnValue := .returnValue
  classDecl hspelled hname hsuperclass := .classDecl ⟨hspelled, hname⟩ fun e he => by
    obtain ⟨parent, rfl, hparent⟩ := hsuperclass e he
    exact .reference hparent
  function hspelled hname := .mk ⟨hspelled, hname⟩

theorem spelled_of_mem {source : String} :
    ∀ t ∈ beforeEnd (tokens source), t.Spelled := by
  intro t ht
  have hbefore : (!t.is .endOfInput) = true :=
    List.mem_takeWhile_imp (p := fun t : Token => !t.is .endOfInput) ht
  rcases rule_of_mem_tokens ((List.takeWhile_prefix _).subset ht) with hrule | ⟨line, rfl⟩
  · exact hrule
  · cases hbefore

theorem program_spelled {source : String} : ∀ s ∈ (Reading.program source).tree, s.Spelled := by
  rw [Reading.program, Session.tree_ofSource]
  exact (spelled_building.program spelled_of_mem).1

theorem expression_spelled {source : String} :
    ∀ e ∈ (Reading.expression source).tree, e.Spelled := by
  rw [Reading.expression, Session.tree_ofSource]
  exact (spelled_building.soleExpression spelled_of_mem).1

end TreeWalk

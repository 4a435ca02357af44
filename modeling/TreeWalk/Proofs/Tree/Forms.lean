import TreeWalk.Tree.Text

/-!
The form of a tree text: words, and lists of forms in parentheses with a word as their head. A
text is written by one form only, as no word has a blank or a parenthesis in it. The text of a tree
is the text of a form with the same structure.
-/

namespace TreeWalk

inductive Form
  | word (text : String)
  /-- The name of a function with its parameters in parentheses. -/
  | signature (name : String) (params : List String)
  | list (head : String) (items : List Form)

namespace Form

/-- Names with a blank before each. -/
def spaced : List String → String
  | [] => ""
  | name :: names => " " ++ name ++ spaced names

/-- Names with a blank between two. -/
def joined : List String → String
  | [] => ""
  | name :: names => name ++ spaced names

mutual

def text : Form → String
  | .word text => text
  | .signature name params => name ++ "(" ++ joined params ++ ")"
  | .list head items => "(" ++ head ++ textAll items ++ ")"

/-- The texts of forms, a blank before each. -/
def textAll : List Form → String
  | [] => ""
  | f :: fs => " " ++ f.text ++ textAll fs

end

/-! ## Words -/

def isDelimiter (c : Char) : Bool := c == ' ' || c == '(' || c == ')'

/-- A word has at least one character and no delimiter. -/
structure IsWord (text : String) : Prop where
  nonempty : text ≠ ""
  plain : ∀ c ∈ text.toList, isDelimiter c = false

instance (text : String) : Decidable (IsWord text) :=
  decidable_of_iff (text ≠ "" ∧ text.toList.all fun c => !isDelimiter c) (by
    simp only [List.all_eq_true, Bool.not_eq_true']
    exact ⟨fun h => ⟨h.1, h.2⟩, fun h => ⟨h.nonempty, h.plain⟩⟩)

theorem isWord_ofList {text : List Char} (hne : text ≠ [])
    (h : ∀ c ∈ text, isDelimiter c = false) : IsWord (String.ofList text) := by
  refine ⟨fun hempty => hne ?_, ?_⟩
  · have hlist := congrArg String.toList hempty
    rwa [String.toList_ofList] at hlist
  · rwa [String.toList_ofList]

/-- What holds of no delimiter tells from them. -/
theorem isDelimiter_eq_false {p : Char → Bool} (hp : [' ', '(', ')'].all fun c => !p c) {c : Char}
    (h : p c) : isDelimiter c = false := by
  rw [Bool.eq_false_iff]
  intro hno
  have hmem : c ∈ [' ', '(', ')'] := by
    simpa [isDelimiter, or_assoc] using hno
  have hnot := List.all_eq_true.1 hp c hmem
  rw [h] at hnot
  cases hnot

/-- Every word of the form is one. -/
inductive Sound : Form → Prop
  | word {text : String} : IsWord text → Sound (.word text)
  | signature {name : String} {params : List String} : IsWord name → (∀ p ∈ params, IsWord p) →
    Sound (.signature name params)
  | list {head : String} {items : List Form} : IsWord head → (∀ f ∈ items, Sound f) →
    Sound (.list head items)

/-- What is behind a word does not go on with it. -/
def Stops (rest : List Char) : Prop := ∀ c ∈ rest.head?, isDelimiter c

/-- What is behind a form is the end, a blank or a closing parenthesis. -/
def Closes (rest : List Char) : Prop := ∀ c ∈ rest.head?, c = ' ' ∨ c = ')'

theorem stops_cons {c : Char} (hc : isDelimiter c) (rest : List Char) : Stops (c :: rest) := by
  rintro _ ⟨⟩
  exact hc

theorem Closes.stops {rest : List Char} (h : Closes rest) : Stops rest := by
  intro c hc
  rcases h c hc with rfl | rfl <;> decide

theorem closes_cons {c : Char} (hc : c = ' ' ∨ c = ')') (rest : List Char) :
    Closes (c :: rest) := by
  rintro _ ⟨⟩
  exact hc

variable {rest rest' : List Char}

theorem IsWord.takeWhile {w : String} (hw : IsWord w) (h : Stops rest) :
    (w.toList ++ rest).takeWhile (fun c => !isDelimiter c) = w.toList := by
  rw [List.takeWhile_append_of_pos fun c hc => by rw [hw.plain c hc]; rfl]
  have hnone : rest.takeWhile (fun c => !isDelimiter c) = [] := by
    cases rest with
    | nil => rfl
    | cons c rest =>
      have hc := h c rfl
      simp [hc]
  rw [hnone, List.append_nil]

/-- A word is read to the first delimiter. -/
theorem word_inj {v w : String} (hv : IsWord v) (hw : IsWord w) (h : Stops rest) (h' : Stops rest')
    (heq : v.toList ++ rest = w.toList ++ rest') : v = w ∧ rest = rest' := by
  have hword := congrArg (List.takeWhile fun c => !isDelimiter c) heq
  rw [hv.takeWhile h, hw.takeWhile h'] at hword
  obtain rfl := String.toList_inj.1 hword
  exact ⟨rfl, List.append_cancel_left heq⟩

/-- A word does not begin with a parenthesis. -/
theorem IsWord.ne_cons {w : String} (hw : IsWord w) {c : Char} (hc : isDelimiter c)
    (more : List Char) : w.toList ++ rest ≠ c :: more := by
  intro heq
  cases hlist : w.toList with
  | nil => exact hw.nonempty (String.toList_eq_nil_iff.1 hlist)
  | cons d ds =>
    have hplain := hw.plain d (hlist ▸ List.mem_cons_self)
    rw [hlist] at heq
    obtain ⟨rfl, _⟩ := List.cons.inj heq
    rw [hplain] at hc
    cases hc

theorem closes_spaced (names : List String) (h : Closes rest) :
    Closes ((spaced names).toList ++ rest) := by
  cases names with
  | nil => exact h
  | cons name names => 
    simp only [spaced, String.toList_append]
    exact closes_cons (.inl rfl) _

theorem spaced_inj {ps qs : List String} (hps : ∀ p ∈ ps, IsWord p) (hqs : ∀ q ∈ qs, IsWord q)
    (heq : (spaced ps).toList ++ ')' :: rest = (spaced qs).toList ++ ')' :: rest') :
    ps = qs ∧ rest = rest' := by
  have hend : ∀ more : List Char, Closes (')' :: more) := closes_cons (.inr rfl)
  induction ps generalizing qs with
  | nil =>
    cases qs with
    | nil => exact ⟨rfl, (List.cons.inj heq).2⟩
    | cons q qs => simp [spaced] at heq
  | cons p ps ih =>
    cases qs with
    | nil => simp [spaced] at heq
    | cons q qs =>
      simp only [spaced, String.toList_append, List.append_assoc] at heq
      rw [List.forall_mem_cons] at hps hqs
      obtain ⟨rfl, hmore⟩ := word_inj hps.1 hqs.1 (closes_spaced ps (hend rest)).stops
        (closes_spaced qs (hend rest')).stops (List.append_cancel_left heq)
      obtain ⟨rfl, hrest⟩ := ih hps.2 hqs.2 hmore
      exact ⟨rfl, hrest⟩

theorem joined_inj {ps qs : List String} (hps : ∀ p ∈ ps, IsWord p) (hqs : ∀ q ∈ qs, IsWord q)
    (heq : (joined ps).toList ++ ')' :: rest = (joined qs).toList ++ ')' :: rest') :
    ps = qs ∧ rest = rest' := by
  cases ps with
  | nil =>
    cases qs with
    | nil => exact ⟨rfl, (List.cons.inj heq).2⟩
    | cons q qs =>
      simp only [joined, String.toList_append, List.append_assoc] at heq
      exact absurd heq.symm ((hqs q List.mem_cons_self).ne_cons (by decide) _)
  | cons p ps =>
    cases qs with
    | nil =>
      simp only [joined, String.toList_append, List.append_assoc] at heq
      exact absurd heq ((hps p List.mem_cons_self).ne_cons (by decide) _)
    | cons q qs =>
      -- A name more before each makes no difference.
      refine spaced_inj hps hqs ?_
      simp only [spaced, joined, String.toList_append, List.append_assoc] at heq ⊢
      rw [heq]

/-! ## A text is written by one form -/

theorem closes_textAll (fs : List Form) (h : Closes rest) :
    Closes ((textAll fs).toList ++ rest) := by
  cases fs with
  | nil => exact h
  | cons f fs =>
    simp only [textAll, String.toList_append]
    exact closes_cons (.inl rfl) _

theorem closes_cons_paren (rest : List Char) : Closes (')' :: rest) := closes_cons (.inr rfl) rest

theorem toList_text_list (head : String) (items : List Form) (rest : List Char) :
    (text (.list head items)).toList ++ rest =
      '(' :: (head.toList ++ ((textAll items).toList ++ ')' :: rest)) := by
  simp [text]

theorem toList_text_signature (name : String) (params : List String) (rest : List Char) :
    (text (.signature name params)).toList ++ rest =
      name.toList ++ '(' :: ((joined params).toList ++ ')' :: rest) := by
  simp [text]

mutual

/-- A form is read from the beginning of its text. -/
theorem text_inj : ∀ (f g : Form), f.Sound → g.Sound → ∀ {rest rest' : List Char},
    Closes rest → Closes rest' → f.text.toList ++ rest = g.text.toList ++ rest' →
    f = g ∧ rest = rest'
  | .word v, .word w, .word hv, .word hw, rest, rest', h, h', heq => by
    obtain ⟨rfl, hrest⟩ := word_inj hv hw h.stops h'.stops heq
    exact ⟨rfl, hrest⟩
  | .word v, .signature name params, .word hv, .signature hname _, rest, rest', h, h', heq => by
    rw [toList_text_signature] at heq
    obtain ⟨_, rfl⟩ := word_inj hv hname h.stops (stops_cons (by decide) _) heq
    rcases h '(' rfl with hno | hno <;> cases hno
  | .word v, .list head items, .word hv, _, rest, rest', h, h', heq => by
    rw [toList_text_list] at heq
    exact absurd heq (hv.ne_cons (by decide) _)
  | .signature name params, g, .signature hname hparams, hg, rest, rest', h, h', heq => by
    rw [toList_text_signature] at heq
    cases hg with
    | word hw =>
      obtain ⟨_, rfl⟩ := word_inj hname hw (stops_cons (by decide) _) h'.stops heq
      rcases h' '(' rfl with hno | hno <;> cases hno
    | signature hname' hparams' =>
      rw [toList_text_signature] at heq
      obtain ⟨rfl, hmore⟩ :=
        word_inj hname hname' (stops_cons (by decide) _) (stops_cons (by decide) _) heq
      obtain ⟨rfl, hrest⟩ := joined_inj hparams hparams' (List.cons.inj hmore).2
      exact ⟨rfl, hrest⟩
    | list _ _ =>
      rw [toList_text_list] at heq
      exact absurd heq (hname.ne_cons (by decide) _)
  | .list head items, g, .list hhead hitems, hg, rest, rest', h, h', heq => by
    rw [toList_text_list] at heq
    cases hg with
    | word hw => exact absurd heq.symm (hw.ne_cons (by decide) _)
    | signature hname _ =>
      rw [toList_text_signature] at heq
      exact absurd heq.symm (hname.ne_cons (by decide) _)
    | list hhead' hitems' =>
      rw [toList_text_list] at heq
      obtain ⟨rfl, hmore⟩ := word_inj hhead hhead'
        (closes_textAll items (closes_cons_paren _)).stops
        (closes_textAll _ (closes_cons_paren _)).stops (List.cons.inj heq).2
      obtain ⟨rfl, hrest⟩ := textAll_inj items _ hitems hitems' hmore
      exact ⟨rfl, hrest⟩

theorem textAll_inj : ∀ (fs gs : List Form), (∀ f ∈ fs, f.Sound) → (∀ g ∈ gs, g.Sound) →
    ∀ {rest rest' : List Char},
    (textAll fs).toList ++ ')' :: rest = (textAll gs).toList ++ ')' :: rest' →
    fs = gs ∧ rest = rest'
  | [], [], _, _, rest, rest', heq => ⟨rfl, (List.cons.inj heq).2⟩
  | [], g :: gs, _, _, rest, rest', heq => by simp [textAll] at heq
  | f :: fs, [], _, _, rest, rest', heq => by simp [textAll] at heq
  | f :: fs, g :: gs, hfs, hgs, rest, rest', heq => by
    simp only [textAll, String.toList_append, List.append_assoc] at heq
    rw [List.forall_mem_cons] at hfs hgs
    obtain ⟨rfl, hmore⟩ := text_inj f g hfs.1 hgs.1 (closes_textAll fs (closes_cons_paren _))
      (closes_textAll gs (closes_cons_paren _)) (List.append_cancel_left heq)
    obtain ⟨rfl, hrest⟩ := textAll_inj fs gs hfs.2 hgs.2 hmore
    exact ⟨rfl, hrest⟩

end

/-- A text is written by one form only. -/
theorem text_injective {f g : Form} (hf : f.Sound) (hg : g.Sound) (h : f.text = g.text) :
    f = g := by
  have hend : Closes [] := nofun
  exact (text_inj f g hf hg hend hend (by rw [h])).1

theorem Sound.one {head : String} {f : Form} (hhead : IsWord head) (hf : f.Sound) :
    (Form.list head [f]).Sound := .list hhead (List.forall_mem_singleton.2 hf)

theorem Sound.two {head : String} {f g : Form} (hhead : IsWord head) (hf : f.Sound)
    (hg : g.Sound) : (Form.list head [f, g]).Sound :=
  .list hhead (List.forall_mem_cons.2 ⟨hf, List.forall_mem_singleton.2 hg⟩)

end Form

/-! ## The form of a tree -/

mutual

def Expr.form : Expr → Form
  | .literal value => .word value.text
  | .group inner => .list "group" [inner.form]
  | .unary operator right => .list operator.lexeme [right.form]
  | .binary left operator right => .list operator.lexeme [left.form, right.form]
  | .logical left operator right => .list operator.lexeme [left.form, right.form]
  | .reference name => .word name.lexeme
  | .assign name value => .list "=" [.word name.lexeme, value.form]
  | .call callee _ arguments => .list "call" (callee.form :: Expr.forms arguments)

def Expr.forms : List Expr → List Form
  | [] => []
  | e :: es => e.form :: Expr.forms es

end

def Expr.formOption : Option Expr → List Form
  | none => []
  | some e => [e.form]

mutual

def Stmt.form : Stmt → Form
  | .expression value => .list ";" [value.form]
  | .print value => .list "print" [value.form]
  | .varDecl name initial => .list "var" (.word name.lexeme :: Expr.formOption initial)
  | .block body => .list "block" (Stmt.forms body)
  | .ifElse condition thenBranch none => .list "if" [condition.form, thenBranch.form]
  | .ifElse condition thenBranch (some elseBranch) =>
    .list "if" [condition.form, thenBranch.form, elseBranch.form]
  | .whileLoop condition body => .list "while" [condition.form, body.form]
  | .funDecl declaration => declaration.form "fun"
  | .returnValue _ value => .list "return" (Expr.formOption value)
  | .classDecl name none methods => .list "class" (.word name.lexeme :: FunDecl.forms methods)
  | .classDecl name (some superclass) methods =>
    .list "class" (.word name.lexeme :: .word "<" :: superclass.form :: FunDecl.forms methods)

def FunDecl.form (head : String) : FunDecl → Form
  | ⟨name, params, body⟩ =>
    .list head (.signature name.lexeme (params.map (·.lexeme)) :: Stmt.forms body)

def Stmt.forms : List Stmt → List Form
  | [] => []
  | s :: ss => s.form :: Stmt.forms ss

def FunDecl.forms : List FunDecl → List Form
  | [] => []
  | d :: ds => d.form "method" :: FunDecl.forms ds

end

mutual

theorem Expr.text_eq_form : ∀ e : Expr, e.text = e.form.text
  | .literal value => rfl
  | .group inner => by
    rw [Expr.text, inner.text_eq_form, Expr.form]
    exact String.toList_inj.1 (by simp [Form.text, Form.textAll])
  | .unary operator right => by
    rw [Expr.text, right.text_eq_form, Expr.form]
    exact String.toList_inj.1 (by simp [Form.text, Form.textAll])
  | .binary left operator right => by
    rw [Expr.text, left.text_eq_form, right.text_eq_form, Expr.form]
    exact String.toList_inj.1 (by simp [Form.text, Form.textAll])
  | .logical left operator right => by
    rw [Expr.text, left.text_eq_form, right.text_eq_form, Expr.form]
    exact String.toList_inj.1 (by simp [Form.text, Form.textAll])
  | .reference name => rfl
  | .assign name value => by
    rw [Expr.text, value.text_eq_form, Expr.form]
    exact String.toList_inj.1 (by simp [Form.text, Form.textAll])
  | .call callee _ arguments => by
    rw [Expr.text, callee.text_eq_form, Expr.textAll_eq_forms arguments, Expr.form]
    exact String.toList_inj.1 (by simp [Form.text, Form.textAll])

theorem Expr.textAll_eq_forms : ∀ es : List Expr, Expr.textAll es = Form.textAll (Expr.forms es)
  | [] => rfl
  | e :: es => by
    rw [Expr.textAll, e.text_eq_form, Expr.textAll_eq_forms es]
    rfl

end

theorem Expr.textOption_eq_form : ∀ o : Option Expr,
    Expr.textOption o = Form.textAll (Expr.formOption o)
  | none => rfl
  | some e => by
    rw [Expr.textOption, e.text_eq_form, Expr.formOption]
    exact String.toList_inj.1 (by simp [Form.textAll])

theorem Form.joined_eq (names : List String) : joined names = " ".intercalate names := by
  cases names with
  | nil => exact String.intercalate_nil.symm
  | cons name names =>
    rw [joined]
    induction names generalizing name with
    | nil => rw [spaced, String.append_empty, String.intercalate_singleton]
    | cons next names ih =>
      rw [spaced, String.intercalate_cons_cons, ← ih next, String.append_assoc, String.append_assoc]

mutual

theorem Stmt.text_eq_form : ∀ s : Stmt, s.text = s.form.text
  | .expression value => by
    rw [Stmt.text, value.text_eq_form, Stmt.form]
    exact String.toList_inj.1 (by simp [Form.text, Form.textAll])
  | .print value => by
    rw [Stmt.text, value.text_eq_form, Stmt.form]
    exact String.toList_inj.1 (by simp [Form.text, Form.textAll])
  | .varDecl name initial => by
    rw [Stmt.text, Expr.textOption_eq_form, Stmt.form]
    exact String.toList_inj.1 (by simp [Form.text, Form.textAll])
  | .block body => by
    rw [Stmt.text, Stmt.textAll_eq_forms body, Stmt.form]
    exact String.toList_inj.1 (by simp [Form.text])
  | .ifElse condition thenBranch none => by
    rw [Stmt.text, condition.text_eq_form, thenBranch.text_eq_form, Stmt.form]
    exact String.toList_inj.1 (by simp [Form.text, Form.textAll])
  | .ifElse condition thenBranch (some elseBranch) => by
    rw [Stmt.text, condition.text_eq_form, thenBranch.text_eq_form, elseBranch.text_eq_form,
      Stmt.form]
    exact String.toList_inj.1 (by simp [Form.text, Form.textAll])
  | .whileLoop condition body => by
    rw [Stmt.text, condition.text_eq_form, body.text_eq_form, Stmt.form]
    exact String.toList_inj.1 (by simp [Form.text, Form.textAll])
  | .funDecl declaration => by
    rw [Stmt.text, declaration.text_eq_form, Stmt.form]
  | .returnValue _ value => by
    rw [Stmt.text, Expr.textOption_eq_form, Stmt.form]
    exact String.toList_inj.1 (by simp [Form.text])
  | .classDecl name none methods => by
    rw [Stmt.text, FunDecl.textAll_eq_forms methods, Stmt.form]
    exact String.toList_inj.1 (by simp [Form.text, Form.textAll])
  | .classDecl name (some superclass) methods => by
    rw [Stmt.text, superclass.text_eq_form, FunDecl.textAll_eq_forms methods, Stmt.form]
    exact String.toList_inj.1 (by simp [Form.text, Form.textAll])

theorem FunDecl.text_eq_form (head : String) : ∀ d : FunDecl, d.text head = (d.form head).text
  | ⟨name, params, body⟩ => by
    rw [FunDecl.text, Stmt.textAll_eq_forms body, FunDecl.form, ← Form.joined_eq]
    exact String.toList_inj.1 (by simp [Form.text, Form.textAll])

theorem Stmt.textAll_eq_forms : ∀ ss : List Stmt, Stmt.textAll ss = Form.textAll (Stmt.forms ss)
  | [] => rfl
  | s :: ss => by
    rw [Stmt.textAll, s.text_eq_form, Stmt.textAll_eq_forms ss]
    rfl

theorem FunDecl.textAll_eq_forms : ∀ ds : List FunDecl,
    FunDecl.textAll ds = Form.textAll (FunDecl.forms ds)
  | [] => rfl
  | d :: ds => by
    rw [FunDecl.textAll, d.text_eq_form, FunDecl.textAll_eq_forms ds]
    rfl

end

end TreeWalk

import Mathlib.Data.List.TakeWhile
import TreeWalk.Token.Scan

/-!
The pieces of a source text. Cutting a text piece by piece tiles it: the pieces stand one behind
the other, nothing is left out and nothing is read twice. The items of a source are what its
pieces list, with the line that each of them ends on.
-/

namespace TreeWalk.Scan

/-! ## One cut -/

theorem fraction_append (cs : List Char) : (fraction cs).1 ++ (fraction cs).2 = cs := by
  unfold fraction
  split
  · split
    · simp [List.takeWhile_append_dropWhile]
    · rfl
  · rfl

theorem numeral_text_append_rest (c : Char) (cs : List Char) :
    (numeral c cs).text ++ (numeral c cs).rest = c :: cs := by
  have hpoint := fraction_append (cs.dropWhile isDigit)
  simp only [numeral, List.cons_append, List.append_assoc, hpoint,
    List.takeWhile_append_dropWhile]

theorem quoted_text_append_rest (cs : List Char) :
    (quoted cs).text ++ (quoted cs).rest = '"' :: cs := by
  have hall := List.takeWhile_append_dropWhile (p := (· != '"')) (l := cs)
  unfold quoted
  split
  · next quote rest hrest =>
    rw [hrest] at hall
    simp [hall]
  · next hrest =>
    rw [hrest, List.append_nil] at hall
    simp [hall]

/-- Where two characters write no symbol, the first one alone is the mark. -/
theorem mark_of_not_pair {c : Char} {cs : List Char}
    (h : ∀ symbol rest, withEqual? c = some symbol → cs ≠ '=' :: rest) :
    mark c cs = match single? c with
      | some symbol => ⟨.token (.symbol symbol), [c], cs⟩
      | none => ⟨.fault (.unexpected c), [c], cs⟩ := by
  unfold mark
  split
  · next symbol rest hsymbol => exact absurd rfl (h symbol rest hsymbol)
  · rfl

theorem mark_text_append_rest (c : Char) (cs : List Char) :
    (mark c cs).text ++ (mark c cs).rest = c :: cs := by
  unfold mark
  split
  · rfl
  · split <;> rfl

/-- What a cut takes and what it leaves are the text it was made on. -/
theorem cut_text_append_rest (c : Char) (cs : List Char) :
    (cut c cs).text ++ (cut c cs).rest = c :: cs := by
  unfold cut
  split
  · rfl
  split
  · exact numeral_text_append_rest c cs
  split
  · simp [word, List.takeWhile_append_dropWhile]
  split
  · next hquote =>
    rw [quoted_text_append_rest, beq_iff_eq.1 hquote]
  split
  · next hslash =>
    simp only [Bool.and_eq_true, beq_iff_eq] at hslash
    simp [comment, List.takeWhile_append_dropWhile, hslash.1]
  · exact mark_text_append_rest c cs

theorem cut_text_ne_nil (c : Char) (cs : List Char) : (cut c cs).text ≠ [] := by
  unfold cut
  split
  · simp
  split
  · simp [numeral]
  split
  · simp [word]
  split
  · unfold quoted
    split <;> simp
  split
  · simp [comment]
  · unfold mark
    split
    · simp
    · split <;> simp

/-- Every cut takes a character. -/
theorem length_rest_cut (c : Char) (cs : List Char) : (cut c cs).rest.length ≤ cs.length := by
  have hlength := congrArg List.length (cut_text_append_rest c cs)
  have htaken := List.length_pos_iff.2 (cut_text_ne_nil c cs)
  rw [List.length_append, List.length_cons] at hlength
  omega

/-! ## All cuts of a text -/

def cuts : List Char → List Cut
  | [] => []
  | c :: cs => cut c cs :: cuts (cut c cs).rest
  termination_by cs => cs.length
  decreasing_by
    have := length_rest_cut c cs
    rw [List.length_cons]
    omega

/-- What a piece lists, if it ends on the given line. -/
def Cut.item? (line : Nat) (piece : Cut) : Option Item :=
  match piece.piece with
  | .skipped => none
  | .token kind => some (.token ⟨kind, String.ofList piece.text, line⟩)
  | .fault fault => some (.fault fault line)

/-- What pieces from the given line on list, without the end of input. -/
def listed (line : Nat) : List Cut → List Item
  | [] => []
  | piece :: more =>
    let line := line + piece.text.count '\n'
    (piece.item? line).toList ++ listed line more

theorem cuts_nil : cuts [] = [] := by
  rw [cuts]

theorem cuts_cons (c : Char) (cs : List Char) :
    cuts (c :: cs) = cut c cs :: cuts (cut c cs).rest := by
  rw [cuts]

/-- The pieces, one behind the other, are the text. -/
theorem flatten_cuts (cs : List Char) : ((cuts cs).map Cut.text).flatten = cs := by
  fun_induction cuts cs with
  | case1 => rfl
  | case2 c cs ih =>
    rw [List.map_cons, List.flatten_cons, ih, cut_text_append_rest]

/-- The line that the text ends on, if it starts on the given one. -/
def lineAfter (line : Nat) (cs : List Char) : Nat := line + cs.count '\n'

theorem lineAfter_append (line : Nat) (cs ds : List Char) :
    lineAfter (lineAfter line cs) ds = lineAfter line (cs ++ ds) := by
  simp [lineAfter, Nat.add_assoc]

theorem lineAfter_cut (line : Nat) (c : Char) (cs : List Char) :
    lineAfter (line + (cut c cs).text.count '\n') (cut c cs).rest = lineAfter line (c :: cs) := by
  rw [lineAfter, lineAfter, ← cut_text_append_rest c cs, List.count_append, Nat.add_assoc]

theorem itemsFrom_eq (fuel line : Nat) (cs : List Char) (hfuel : cs.length ≤ fuel) :
    itemsFrom fuel line cs =
      listed line (cuts cs) ++ [.token (.endOfInput (lineAfter line cs))] := by
  induction fuel generalizing line cs with
  | zero =>
    obtain rfl : cs = [] := List.length_eq_zero_iff.1 (Nat.le_zero.1 hfuel)
    rw [cuts_nil]
    rfl
  | succ fuel ih =>
    cases cs with
    | nil =>
      rw [cuts_nil]
      rfl
    | cons c cs =>
      have hrest := length_rest_cut c cs
      rw [List.length_cons] at hfuel
      have hmore := ih (line + (cut c cs).text.count '\n') (cut c cs).rest (by omega)
      rw [lineAfter_cut] at hmore
      rw [itemsFrom, hmore, cuts_cons, listed, Cut.item?]
      cases (cut c cs).piece <;> rfl

/-- The items of a source are what its pieces list, and the end of input. -/
theorem items_eq (source : String) :
    items source = listed 1 (cuts source.toList) ++
      [.token (.endOfInput (lineAfter 1 source.toList))] :=
  itemsFrom_eq _ 1 source.toList (Nat.le_refl _)

/-- Each piece is cut off what the pieces before it left. -/
theorem cuts_split {cs : List Char} {before after : List Cut} {piece : Cut}
    (h : cuts cs = before ++ piece :: after) :
    ∃ c ds, piece = cut c ds ∧ cs = (before.map Cut.text).flatten ++ c :: ds ∧
      after = cuts piece.rest := by
  fun_induction cuts cs generalizing before with
  | case1 => simp at h
  | case2 c cs ih =>
    cases before with
    | nil =>
      rw [List.nil_append, List.cons.injEq] at h
      obtain ⟨rfl, rfl⟩ := h
      exact ⟨c, cs, rfl, rfl, rfl⟩
    | cons first before =>
      rw [List.cons_append, List.cons.injEq] at h
      obtain ⟨rfl, h⟩ := h
      obtain ⟨d, ds, hpiece, hcs, hafter⟩ := ih h
      refine ⟨d, ds, hpiece, ?_, hafter⟩
      rw [List.map_cons, List.flatten_cons, List.append_assoc, ← hcs, cut_text_append_rest]

theorem listed_split {line : Nat} {pieces : List Cut} {before after : List Item} {item : Item}
    (h : listed line pieces = before ++ item :: after) :
    ∃ done piece rest, ∃ last : Nat, pieces = done ++ piece :: rest ∧
      piece.item? last = some item ∧ before = listed line done ∧ after = listed last rest := by
  induction pieces generalizing line before with
  | nil => simp [listed] at h
  | cons first more ih =>
    rw [listed] at h
    cases hitem : first.item? (line + first.text.count '\n') with
    | none =>
      rw [hitem] at h
      obtain ⟨done, piece, rest, last, rfl, hpiece, rfl, rfl⟩ := ih h
      exact ⟨first :: done, piece, rest, last, rfl, hpiece, by simp [listed, hitem], rfl⟩
    | some own =>
      rw [hitem] at h
      cases before with
      | nil =>
        obtain ⟨rfl, rfl⟩ := List.cons.inj h
        exact ⟨[], first, more, _, rfl, hitem, rfl, rfl⟩
      | cons head before =>
        obtain ⟨rfl, hmore⟩ := List.cons.inj h
        obtain ⟨done, piece, rest, last, rfl, hpiece, rfl, rfl⟩ := ih hmore
        exact ⟨first :: done, piece, rest, last, rfl, hpiece, by simp [listed, hitem], rfl⟩

/-! ## What the pieces are made of -/

/-- A token has a text and is no end of input; a fault is one character, or all from an unclosed
quote on; what is skipped is a blank or a comment, which ends at the end of its line. -/
inductive Cut.Tile : Cut → Prop
  | token {kind : Kind} {text rest : List Char} : text ≠ [] → kind ≠ .symbol .endOfInput →
    Tile ⟨.token kind, text, rest⟩
  | unexpected {c : Char} {rest : List Char} : Tile ⟨.fault (.unexpected c), [c], rest⟩
  | unterminated {contents : List Char} : '"' ∉ contents →
    Tile ⟨.fault .unterminated, '"' :: contents, []⟩
  | blank {c : Char} {rest : List Char} : c ∈ [' ', '\t', '\r', '\n'] → Tile ⟨.skipped, [c], rest⟩
  | comment {body rest : List Char} : '\n' ∉ body → (rest = [] ∨ rest.head? = some '\n') →
    Tile ⟨.skipped, '/' :: '/' :: body, rest⟩

theorem mem_blanks {c : Char} : isBlank c = true ↔ c ∈ [' ', '\t', '\r', '\n'] := by
  simp only [isBlank, Bool.or_eq_true, beq_iff_eq, List.mem_cons, List.not_mem_nil, or_false]
  grind

theorem quoted_tile (cs : List Char) : (quoted cs).Tile := by
  unfold quoted
  split
  · exact .token (by simp) (by simp)
  · next hrest =>
    refine .unterminated ?_
    intro hmem
    have := List.mem_takeWhile_imp hmem
    simp at this

theorem mark_tile (c : Char) (cs : List Char) : (mark c cs).Tile := by
  unfold mark
  split
  · next symbol rest hsymbol =>
    refine .token (by simp) ?_
    unfold withEqual? at hsymbol
    split at hsymbol <;> cases hsymbol <;> simp
  · split
    · next symbol hsymbol =>
      refine .token (by simp) ?_
      unfold single? at hsymbol
      split at hsymbol <;> cases hsymbol <;> simp
    · exact .unexpected

theorem comment_tile (cs : List Char) : (comment ('/' :: cs)).Tile := by
  have htake : ('/' :: cs).takeWhile (· != '\n') = '/' :: cs.takeWhile (· != '\n') := by simp
  have hdrop : ('/' :: cs).dropWhile (· != '\n') = cs.dropWhile (· != '\n') := by simp
  rw [comment, htake, hdrop]
  refine .comment ?_ ?_
  · intro hmem
    have := List.mem_takeWhile_imp hmem
    simp at this
  · cases hrest : cs.dropWhile (· != '\n') with
    | nil => exact .inl rfl
    | cons d ds =>
      have hnot := List.head?_dropWhile_not (· != '\n') cs
      rw [hrest] at hnot
      simp only [List.head?_cons, bne_eq_false_iff_eq] at hnot
      exact .inr (congrArg some hnot)

theorem cut_tile (c : Char) (cs : List Char) : (cut c cs).Tile := by
  unfold cut
  split
  · next hblank => exact .blank (mem_blanks.1 hblank)
  split
  · exact .token (by simp) (by simp)
  split
  · refine .token (by simp) ?_
    cases Keyword.ofSpelling? (String.ofList (c :: cs.takeWhile isWordPart)) <;> simp
  split
  · exact quoted_tile cs
  split
  · next hslash =>
    simp only [Bool.and_eq_true, beq_iff_eq] at hslash
    obtain ⟨ds, rfl⟩ := List.head?_eq_some_iff.1 hslash.2
    exact comment_tile ds
  · exact mark_tile c cs

theorem tile_of_mem_cuts {cs : List Char} {piece : Cut} (h : piece ∈ cuts cs) : piece.Tile := by
  obtain ⟨before, after, hsplit⟩ := List.append_of_mem h
  obtain ⟨c, ds, rfl, _, _⟩ := cuts_split hsplit
  exact cut_tile c ds

/-- The end of input is no token of a piece. -/
theorem kind_of_mem_listed {line : Nat} {cs : List Char} {t : Token}
    (h : .token t ∈ listed line (cuts cs)) : t.kind ≠ .symbol .endOfInput := by
  obtain ⟨before, after, hsplit⟩ := List.append_of_mem h
  obtain ⟨done, piece, rest, last, hpieces, hitem, _, _⟩ := listed_split hsplit
  have hmem : piece ∈ cuts cs := by simp [hpieces]
  cases tile_of_mem_cuts hmem with
  | token _ hkind =>
    cases hitem
    exact hkind
  | _ => cases hitem

def Item.line : Item → Nat
  | .token t => t.line
  | .fault _ line => line

/-- The text that an item is about: a lexeme, a character that begins nothing, or all from an
unclosed quote on. -/
inductive Item.Covers : Item → List Char → Prop
  | token (t : Token) : Covers (.token t) t.lexeme.toList
  | unexpected (c : Char) (line : Nat) : Covers (.fault (.unexpected c) line) [c]
  | unterminated {contents : List Char} (line : Nat) : '"' ∉ contents →
    Covers (.fault .unterminated line) ('"' :: contents)

theorem Cut.line_of_item? {piece : Cut} {line : Nat} {item : Item}
    (h : piece.item? line = some item) : item.line = line := by
  unfold Cut.item? at h
  split at h <;> cases h <;> rfl

theorem Cut.skipped_of_item? {piece : Cut} {line : Nat} (h : piece.item? line = none) :
    piece.piece = .skipped := by
  unfold Cut.item? at h
  split at h
  · assumption
  · cases h
  · cases h

/-- What a piece lists is about its text. -/
theorem Cut.Tile.covers {piece : Cut} (h : piece.Tile) {line : Nat} {item : Item}
    (hitem : piece.item? line = some item) : item.Covers piece.text := by
  cases h with
  | @token kind text rest =>
    cases hitem
    have hcovers := Item.Covers.token ⟨kind, String.ofList text, line⟩
    rw [String.toList_ofList] at hcovers
    exact hcovers
  | @unexpected c rest =>
    cases hitem
    exact .unexpected c line
  | unterminated hcontents =>
    cases hitem
    exact .unterminated line hcontents
  | blank => cases hitem
  | comment => cases hitem

/-! ## Texts joined by a line end -/

section

variable {p : Char → Bool} (hp : p '\n' = false) (cs ds : List Char)
include hp

theorem takeWhile_join : (cs ++ '\n' :: ds).takeWhile p = cs.takeWhile p := by
  induction cs with
  | nil => simp [hp]
  | cons c cs ih => simp [List.takeWhile_cons, ih]

theorem dropWhile_join : (cs ++ '\n' :: ds).dropWhile p = cs.dropWhile p ++ '\n' :: ds := by
  induction cs with
  | nil => simp [hp]
  | cons c cs ih =>
    by_cases hc : p c <;> simp [hc, ih]

end

theorem fraction_join (cs ds : List Char) :
    fraction (cs ++ '\n' :: ds) = ((fraction cs).1, (fraction cs).2 ++ '\n' :: ds) := by
  have hline : isDigit '\n' = false := by decide
  match cs with
  | [] => rfl
  | [c] =>
    by_cases hc : c = '.'
    · subst hc
      simp [fraction, hline]
    · simp [fraction, hc]
  | c :: d :: cs =>
    by_cases hc : c = '.'
    · subst hc
      by_cases hd : isDigit d
      · simp [fraction, hd, takeWhile_join hline, dropWhile_join hline]
      · simp [fraction, hd]
    · simp [fraction, hc]

/-- A string that is closed stays as it is. -/
theorem quoted_join {cs : List Char} (ds : List Char)
    (h : (quoted cs).piece ≠ .fault .unterminated) :
    quoted (cs ++ '\n' :: ds) = { quoted cs with rest := (quoted cs).rest ++ '\n' :: ds } := by
  cases hdrop : cs.dropWhile (· != '"') with
  | nil => exact absurd (by rw [quoted, hdrop]) h
  | cons quote rest =>
    have hdrop' : (cs ++ '\n' :: ds).dropWhile (· != '"') = quote :: (rest ++ '\n' :: ds) := by
      rw [List.dropWhile_append, hdrop]
      rfl
    have htake : (cs ++ '\n' :: ds).takeWhile (· != '"') = cs.takeWhile (· != '"') := by
      have hjoined := List.takeWhile_append_dropWhile (p := (· != '"')) (l := cs ++ '\n' :: ds)
      have halone := List.takeWhile_append_dropWhile (p := (· != '"')) (l := cs)
      rw [hdrop'] at hjoined
      rw [hdrop] at halone
      apply List.append_cancel_right
      calc _ = cs ++ '\n' :: ds := hjoined
        _ = cs.takeWhile (· != '"') ++ quote :: rest ++ '\n' :: ds := by rw [halone]
        _ = cs.takeWhile (· != '"') ++ quote :: (rest ++ '\n' :: ds) := by simp
    simp only [quoted, hdrop, hdrop', htake]

theorem mark_join (c : Char) (cs ds : List Char) :
    mark c (cs ++ '\n' :: ds) = { mark c cs with rest := (mark c cs).rest ++ '\n' :: ds } := by
  unfold mark
  cases hpair : withEqual? c with
  | none => cases single? c <;> rfl
  | some symbol =>
    cases cs with
    | nil => cases single? c <;> rfl
    | cons d cs =>
      by_cases hd : d = '='
      · subst hd
        rfl
      · simp only [List.cons_append, List.cons.injEq, hd, false_and, imp_self, implies_true]
        cases single? c <;> rfl

/-- A line end behind a text changes none of its pieces, unless a string is left open. -/
theorem cut_join {c : Char} {cs : List Char} (ds : List Char)
    (h : (cut c cs).piece ≠ .fault .unterminated) :
    cut c (cs ++ '\n' :: ds) = { cut c cs with rest := (cut c cs).rest ++ '\n' :: ds } := by
  have hdigit : isDigit '\n' = false := by decide
  have hword : isWordPart '\n' = false := by decide
  have hslash : ((cs ++ '\n' :: ds).head? == some '/') = (cs.head? == some '/') := by
    cases cs <;> rfl
  unfold cut at h ⊢
  rw [hslash]
  split
  · rfl
  split
  · simp only [numeral, takeWhile_join hdigit, dropWhile_join hdigit, fraction_join]
  split
  · simp only [word, takeWhile_join hword, dropWhile_join hword]
  split
  · next hblank hdigit' hletter hquote =>
    simp only [hblank, hdigit', hletter, hquote, if_true, if_false, Bool.false_eq_true] at h
    exact quoted_join ds h
  split
  · simp only [comment, takeWhile_join (p := (· != '\n')) rfl,
      dropWhile_join (p := (· != '\n')) rfl]
  · exact mark_join c cs ds

theorem cut_line_end (cs : List Char) : cut '\n' cs = ⟨.skipped, ['\n'], cs⟩ := rfl

theorem listed_join (line : Nat) (cs ds : List Char)
    (h : ∀ piece ∈ cuts cs, piece.piece ≠ .fault .unterminated) :
    listed line (cuts (cs ++ '\n' :: ds)) =
      listed line (cuts cs) ++ listed (lineAfter line cs + 1) (cuts ds) := by
  fun_induction cuts cs generalizing line with
  | case1 =>
    rw [List.nil_append, cuts_cons, cut_line_end]
    rfl
  | case2 c cs ih =>
    have hfirst := h (cut c cs) List.mem_cons_self
    have hmore := ih (line + (cut c cs).text.count '\n')
      fun piece hpiece => h piece (List.mem_cons_of_mem _ hpiece)
    rw [List.cons_append, cuts_cons, cut_join ds hfirst, listed, listed, hmore, lineAfter_cut,
      List.append_assoc]
    rfl

end TreeWalk.Scan

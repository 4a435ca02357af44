import TreeWalk.Proofs.Token.Cursor

/-!
The reader that hands out one item after another. Each of its calls reads pieces from the cursor
on, up to the first that is not skipped; the end of input is handed out once, and nothing after
it. The items are those of the scan, and they tile the source.
-/

namespace TreeWalk.Scan

namespace Cursor

variable {source : String}

/-! ## Progress -/

theorem le_advanceWhile {p : Nat → Bool} {c d : Cursor}
    (h : advanceWhile source p c = some d) : c.next ≤ d.next := by
  fun_induction advanceWhile source p c with
  | case1 c _ b _ ih => exact Nat.le_of_succ_le (ih h)
  | case2 => cases h
  | case3 =>
    cases h
    exact Nat.le_refl _

theorem le_advance {c d : Cursor} (h : advance source c = some d) : c.next ≤ d.next := by
  obtain ⟨b, _, hd⟩ := Option.bind_eq_some_iff.1 h
  cases hd
  exact Nat.le_succ _

theorem le_readNumeral {c d : Cursor} {piece : Piece}
    (h : readNumeral source c = some (piece, d)) : c.next ≤ d.next := by
  obtain ⟨digits, hdigits, h⟩ := Option.bind_eq_some_iff.1 h
  obtain ⟨point, hpoint, h⟩ := Option.bind_eq_some_iff.1 h
  obtain ⟨_, _, h⟩ := Option.bind_eq_some_iff.1 h
  cases h
  apply Nat.le_trans (le_advanceWhile hdigits)
  unfold readFraction at hpoint
  split at hpoint
  · obtain ⟨behind, hbehind, hpoint⟩ := Option.bind_eq_some_iff.1 hpoint
    exact Nat.le_trans (le_advance hbehind) (le_advanceWhile hpoint)
  · cases hpoint
    exact Nat.le_refl _

theorem le_readWord {c d : Cursor} {piece : Piece}
    (h : readWord source c = some (piece, d)) : c.next ≤ d.next := by
  obtain ⟨parts, hparts, h⟩ := Option.bind_eq_some_iff.1 h
  obtain ⟨_, _, h⟩ := Option.bind_eq_some_iff.1 h
  cases h
  exact le_advanceWhile hparts

theorem le_readQuoted {c d : Cursor} {piece : Piece}
    (h : readQuoted source c = some (piece, d)) : c.next ≤ d.next := by
  obtain ⟨contents, hcontents, h⟩ := Option.bind_eq_some_iff.1 h
  apply Nat.le_trans (le_advanceWhile hcontents)
  split at h
  · cases h
    exact Nat.le_refl _
  · obtain ⟨closed, hclosed, h⟩ := Option.bind_eq_some_iff.1 h
    obtain ⟨_, _, h⟩ := Option.bind_eq_some_iff.1 h
    cases h
    exact le_advance hclosed

theorem le_readComment {c d : Cursor} {piece : Piece}
    (h : readComment source c = some (piece, d)) : c.next ≤ d.next := by
  obtain ⟨body, hbody, h⟩ := Option.bind_eq_some_iff.1 h
  cases h
  exact le_advanceWhile hbody

theorem le_readUnexpected {c d : Cursor} {piece : Piece}
    (h : readUnexpected source c = some (piece, d)) : c.next ≤ d.next := by
  obtain ⟨behind, hbehind, h⟩ := Option.bind_eq_some_iff.1 h
  obtain ⟨_, _, h⟩ := Option.bind_eq_some_iff.1 h
  split at h
  · cases h
    exact le_advanceWhile hbehind
  · cases h

theorem le_readMark {b : Char} {c d : Cursor} {piece : Piece}
    (h : readMark source b c = some (piece, d)) : c.next ≤ d.next := by
  have hsingle : readSingle source b c = some (piece, d) → c.next ≤ d.next := by
    intro h
    unfold readSingle at h
    split at h
    · cases h
      exact Nat.le_refl _
    · exact le_readUnexpected h
  unfold readMark at h
  split at h
  · split at h
    · obtain ⟨behind, hbehind, h⟩ := Option.bind_eq_some_iff.1 h
      cases h
      exact le_advance hbehind
    · exact hsingle h
  · exact hsingle h

/-- Every piece takes a byte. -/
theorem lt_readPiece {c d : Cursor} {piece : Piece}
    (h : readPiece source c = some (piece, d)) : c.next < d.next := by
  obtain ⟨b, _, h⟩ := Option.bind_eq_some_iff.1 h
  have hpast : ∀ {e : Cursor}, (past b ⟨c.next, c.next, c.line⟩).next ≤ e.next → c.next < e.next :=
    Nat.lt_of_succ_le
  split at h
  · cases h
    exact hpast (Nat.le_refl _)
  split at h
  · exact hpast (le_readNumeral h)
  split at h
  · exact hpast (le_readWord h)
  split at h
  · exact hpast (le_readQuoted h)
  dsimp only at h
  split at h
  · exact hpast (le_readComment h)
  · exact hpast (le_readMark h)

/-! ## Items -/

/-- One call of the reader: the next item, or none at the end, and the cursor it leaves. -/
def nextItem (source : String) (c : Cursor) : Option (Option Item × Cursor) :=
  if source.toUTF8.size < c.next then some (none, c)
  else if c.next = source.toUTF8.size then
    some (some (.token (.endOfInput c.line)), { c with next := c.next + 1 })
  else
    match _h : readPiece source c with
    | none => none
    | some (.skipped, d) => nextItem source d
    | some (.token kind, d) => do
      let text ← lexeme source d
      return (some (.token ⟨kind, text, d.line⟩), d)
    | some (.fault fault, d) => some (some (.fault fault d.line), d)
  termination_by source.toUTF8.size + 1 - c.next
  decreasing_by
    have := lt_readPiece _h
    omega

/-- The replies to the first `n` calls of a reader. -/
def replies (source : String) : Nat → Cursor → Option (List (Option Item))
  | 0, _ => some []
  | n + 1, c => do
    let (reply, d) ← nextItem source c
    let more ← replies source n d
    return reply :: more

/-- Where a reader starts. -/
def initial : Cursor := ⟨0, 0, 1⟩

/-- The items that a reader at the cursor has still to hand out. -/
inductive Ahead (source : String) : Cursor → List Item → Prop
  | inside {before cs : List Char} (start line : Nat) : source.toList = before ++ cs →
    Ahead source ⟨start, width before, line⟩
      (listed line (cuts cs) ++ [.token (.endOfInput (lineAfter line cs))])
  | behind {c : Cursor} : source.toUTF8.size < c.next → Ahead source c []

theorem nextItem_end {c : Cursor} (h : c.next = source.toUTF8.size) :
    nextItem source c =
      some (some (.token (.endOfInput c.line)), { c with next := c.next + 1 }) := by
  rw [nextItem, if_neg (by omega), if_pos h]

section

variable {c d : Cursor} (h : c.next < source.toUTF8.size)
include h

theorem nextItem_skipped (hpiece : readPiece source c = some (.skipped, d)) :
    nextItem source c = nextItem source d := by
  conv => lhs; rw [nextItem, if_neg (by omega), if_neg (by omega)]
  split <;> rename_i hread <;> cases hread.symm.trans hpiece
  rfl

theorem nextItem_token {kind : Kind} {text : String}
    (hpiece : readPiece source c = some (.token kind, d)) (hlexeme : lexeme source d = some text) :
    nextItem source c = some (some (.token ⟨kind, text, d.line⟩), d) := by
  rw [nextItem, if_neg (by omega), if_neg (by omega)]
  split <;> rename_i hread <;> cases hread.symm.trans hpiece
  rw [hlexeme]
  rfl

theorem nextItem_fault {fault : LexicalFault}
    (hpiece : readPiece source c = some (.fault fault, d)) :
    nextItem source c = some (some (.fault fault d.line), d) := by
  rw [nextItem, if_neg (by omega), if_neg (by omega)]
  split <;> rename_i hread <;> cases hread.symm.trans hpiece
  rfl

end

section

variable {before cs : List Char} (start line : Nat)

theorem inside_source {c : Char} (hsource : source.toList = before ++ c :: cs) :
    width before < source.toUTF8.size := by
  obtain ⟨b, more, hbytes, _⟩ := seen_head c
  rw [size_toUTF8, hsource, ← List.singleton_append, width_append, width_append,
    ← length_seen [c], hbytes, List.length_cons]
  omega

/-- Inside the source a call hands out the next item; what is skipped before it is passed over. -/
theorem nextItem_listed {item : Item} {more : List Item}
    (hsource : source.toList = before ++ cs) (h : listed line (cuts cs) = item :: more) :
    ∃ gap text rest, cs = gap ++ (text ++ rest) ∧ item.Covers text ∧
      item.line = lineAfter line (gap ++ text) ∧ more = listed item.line (cuts rest) ∧
      nextItem source ⟨start, width before, line⟩ =
        some (some item, amid (before ++ gap) text (lineAfter line gap)) := by
  fun_induction cuts cs generalizing before start line with
  | case1 => simp [listed] at h
  | case2 c cs ih =>
    have hinside := inside_source hsource
    have hpiece := readPiece_amid line start hsource
    have hall := cut_text_append_rest c cs
    have hrest : source.toList = before ++ (cut c cs).text ++ (cut c cs).rest := by
      rw [hsource, List.append_assoc, hall]
    have htext : source.toList = before ++ ((cut c cs).text ++ (cut c cs).rest) :=
      hrest.trans (List.append_assoc _ _ _)
    rw [listed] at h
    cases hitem : (cut c cs).item? (line + (cut c cs).text.count '\n') with
    | none =>
      have hkind := Cut.skipped_of_item? hitem
      rw [hitem] at h
      rw [hkind] at hpiece
      obtain ⟨gap, text, rest, hleft, hcovers, hline, hmore, hnext⟩ :=
        ih (width before) (line + (cut c cs).text.count '\n') hrest h
      refine ⟨(cut c cs).text ++ gap, text, rest, ?_, hcovers, ?_, hmore, ?_⟩
      · rw [List.append_assoc, ← hleft, hall]
      · rw [hline, List.append_assoc, ← lineAfter_append line]
        rfl
      · rw [nextItem_skipped hinside hpiece, ← List.append_assoc, ← lineAfter_append]
        exact hnext
    | some own =>
      rw [hitem] at h
      obtain ⟨rfl, rfl⟩ := List.cons.inj h
      have hcovers := (cut_tile c cs).covers hitem
      have hline := Cut.line_of_item? hitem
      refine ⟨[], (cut c cs).text, (cut c cs).rest, hall.symm, hcovers, hline, by rw [hline]; rfl,
        ?_⟩
      rw [List.append_nil]
      unfold Cut.item? at hitem
      split at hitem <;> cases hitem
      · next hkind =>
        rw [hkind] at hpiece
        exact nextItem_token hinside hpiece (lexeme_amid line htext)
      · next hkind =>
        rw [hkind] at hpiece
        exact nextItem_fault hinside hpiece

/-- Where no item is left, a call hands out the end of input. -/
theorem nextItem_last (hsource : source.toList = before ++ cs) (h : listed line (cuts cs) = []) :
    ∃ d : Cursor, d.next = source.toUTF8.size + 1 ∧ nextItem source ⟨start, width before, line⟩ =
      some (some (.token (.endOfInput (lineAfter line cs))), d) := by
  fun_induction cuts cs generalizing before start line with
  | case1 =>
    have hend : width before = source.toUTF8.size := by
      rw [size_toUTF8, hsource, List.append_nil]
    exact ⟨_, congrArg (· + 1) hend, nextItem_end hend⟩
  | case2 c cs ih =>
    rw [listed, List.append_eq_nil_iff] at h
    have hkind := Cut.skipped_of_item? (Option.toList_eq_nil_iff.1 h.1)
    have hpiece := readPiece_amid line start hsource
    have hrest : source.toList = before ++ (cut c cs).text ++ (cut c cs).rest := by
      rw [hsource, List.append_assoc, cut_text_append_rest]
    rw [hkind] at hpiece
    rw [nextItem_skipped (inside_source hsource) hpiece, ← lineAfter_cut]
    exact ih (width before) (line + (cut c cs).text.count '\n') hrest h.2

theorem nextItem_inside (hsource : source.toList = before ++ cs) :
    ∃ item more d, listed line (cuts cs) ++ [.token (.endOfInput (lineAfter line cs))] =
      item :: more ∧ nextItem source ⟨start, width before, line⟩ = some (some item, d) ∧
        Ahead source d more := by
  cases h : listed line (cuts cs) with
  | nil =>
    obtain ⟨d, hd, hnext⟩ := nextItem_last start line hsource h
    exact ⟨_, [], d, rfl, hnext, .behind (hd ▸ Nat.lt_succ_self _)⟩
  | cons item more =>
    obtain ⟨gap, text, rest, hcs, _, hline, rfl, hnext⟩ := nextItem_listed start line hsource h
    have hrest : source.toList = before ++ gap ++ text ++ rest := by
      rw [hsource, hcs, List.append_assoc, List.append_assoc]
    have hahead := Ahead.inside (width (before ++ gap)) item.line hrest
    have hlast : lineAfter item.line rest = lineAfter line cs := by
      rw [hline, lineAfter_append, hcs, List.append_assoc]
    have hcursor : amid (before ++ gap) text (lineAfter line gap) =
        ⟨width (before ++ gap), width (before ++ gap ++ text), item.line⟩ := by
      rw [hline, ← lineAfter_append]
      rfl
    rw [hlast, ← hcursor] at hahead
    exact ⟨item, _, _, rfl, hnext, hahead⟩

end

theorem nextItem_ahead {c : Cursor} {items : List Item} (h : Ahead source c items) :
    ∃ d, nextItem source c = some (items.head?, d) ∧ Ahead source d items.tail := by
  cases h with
  | inside start line hsource =>
    obtain ⟨item, more, d, hitems, hnext, hmore⟩ := nextItem_inside start line hsource
    rw [hitems]
    exact ⟨d, hnext, hmore⟩
  | behind hlt =>
    refine ⟨c, ?_, .behind hlt⟩
    rw [nextItem, if_pos hlt]
    rfl

theorem replies_ahead (n : Nat) {c : Cursor} {items : List Item} (h : Ahead source c items) :
    replies source n c = some ((List.range n).map fun i => items[i]?) := by
  induction n generalizing c items with
  | zero => rfl
  | succ n ih =>
    obtain ⟨d, hnext, hmore⟩ := nextItem_ahead h
    have hreplies := ih hmore
    rw [replies, hnext, Option.bind_eq_bind, Option.bind_some, List.range_succ_eq_map]
    simp only [hreplies, Option.bind_eq_bind, Option.bind_some, List.map_cons, List.map_map]
    cases items <;> rfl

end Cursor

/-! ## The whole source -/

/-- An open string takes all that is left, so that nothing is listed behind it. -/
theorem unterminated_last {line last : Nat} {cs : List Char} {before after : List Item}
    (h : listed line (cuts cs) = before ++ .fault .unterminated last :: after) :
    after = [] ∧ last = lineAfter line cs := by
  fun_induction cuts cs generalizing line before with
  | case1 => simp [listed] at h
  | case2 c cs ih =>
    have htile := cut_tile c cs
    have hline := lineAfter_cut line c cs
    rw [listed] at h
    rw [← hline]
    cases hitem : (cut c cs).item? (line + (cut c cs).text.count '\n') with
    | none =>
      rw [hitem] at h
      exact ih h
    | some own =>
      rw [hitem] at h
      rcases List.cons_eq_append_iff.1 h with ⟨rfl, hown⟩ | ⟨more, rfl, hmore⟩
      · obtain ⟨hfault, hafter⟩ := List.cons.inj hown
        subst hfault hafter
        generalize cut c cs = piece at htile hitem ⊢
        cases htile with
        | unterminated _ =>
          cases hitem
          exact ⟨by rw [cuts_nil]; rfl, rfl⟩
        | _ => cases hitem
      · exact ih hmore

/-- A reader of a source hands out the items of the scan and then none, and never leaves the
source or splits a character. The pieces behind the items tile the source: tokens without the end
of input, which comes once and last, faults, blanks and comments. An open string is the last
piece. -/
theorem reader_tiles (source : String) :
    (∀ n, Cursor.replies source n .initial =
      some ((List.range n).map fun i => (items source)[i]?)) ∧
    items source = listed 1 (cuts source.toList) ++
      [.token (.endOfInput (lineAfter 1 source.toList))] ∧
    (∀ t, .token t ∈ listed 1 (cuts source.toList) → t.kind ≠ .symbol .endOfInput) ∧
    ((cuts source.toList).map Cut.text).flatten = source.toList ∧
    (∀ before piece after, cuts source.toList = before ++ piece :: after →
      piece.Tile ∧ source.toList = (before.map Cut.text).flatten ++ (piece.text ++ piece.rest)) ∧
    ∀ before line after, items source = before ++ .fault .unterminated line :: after →
      after = [.token (.endOfInput line)] ∧ ∀ other, .fault .unterminated other ∉ before := by
  have hitems := items_eq source
  have hlast : ∀ before line after, items source = before ++ .fault .unterminated line :: after →
      after = [.token (.endOfInput line)] := by
    intro before line after h
    rw [hitems] at h
    rcases List.append_eq_append_iff.1 h with ⟨more, _, hend⟩ | ⟨more, hlisted, hfault⟩
    · cases more with
      | nil => cases hend
      | cons _ more => simp at hend
    · cases more with
      | nil => cases hfault
      | cons _ more =>
        obtain ⟨rfl, rfl⟩ := List.cons.inj hfault
        obtain ⟨rfl, rfl⟩ := unterminated_last hlisted
        rfl
  refine ⟨?_, hitems, fun t => kind_of_mem_listed, flatten_cuts source.toList, ?_, ?_⟩
  · intro n
    apply Cursor.replies_ahead
    rw [hitems]
    have hstart : source.toList = [] ++ source.toList := rfl
    exact .inside 0 1 hstart
  · intro before piece after h
    obtain ⟨c, ds, rfl, hsource, _⟩ := cuts_split h
    exact ⟨cut_tile c ds, by rw [cut_text_append_rest, hsource]⟩
  · intro before line after h
    refine ⟨hlast before line after h, ?_⟩
    intro other hother
    obtain ⟨first, second, rfl⟩ := List.append_of_mem hother
    have hafter := hlast first other (second ++ .fault .unterminated line :: after)
      (by simpa using h)
    have hmem : Item.fault .unterminated line ∈ [Item.token (.endOfInput other)] := by
      rw [← hafter]
      exact List.mem_append_right _ List.mem_cons_self
    cases List.mem_singleton.1 hmem

/-- A character of two bytes that begins nothing, and an open string behind it. -/
theorem openString_tiles :
    items "é\"" = [.fault (.unexpected 'é') 1] ++ .fault .unterminated 1 ::
      [.token (.endOfInput 1)] ∧
    Cursor.replies "é\"" 4 .initial = some [some (.fault (.unexpected 'é') 1),
      some (.fault .unterminated 1), some (.token (.endOfInput 1)), none] := by
  have hitems : items "é\"" = [.fault (.unexpected 'é') 1] ++ .fault .unterminated 1 ::
      [.token (.endOfInput 1)] := by
    have hchars : "é\"".toList = ['é', '"'] := by decide
    rw [items, hchars]
    rfl
  refine ⟨hitems, ?_⟩
  rw [(reader_tiles "é\"").1 4, hitems]
  rfl

end TreeWalk.Scan

import TreeWalk.Proofs.Token.Reader

/-!
Line numbers are exact. A reader between two calls stands behind whole characters and on the line
that their line ends give. Whatever a call passes over, a string with line ends in it, a comment
or blanks, the line it reports is counted up to the end of the text it reports.
-/

namespace TreeWalk.Scan

/-! ## Lines in a list of pieces -/

theorem le_line_of_mem_listed {line : Nat} {pieces : List Cut} {item : Item}
    (h : item ∈ listed line pieces) : line ≤ item.line := by
  induction pieces generalizing line with
  | nil => cases h
  | cons piece more ih =>
    rw [listed, List.mem_append] at h
    rcases h with hown | hmore
    · rw [Cut.line_of_item? (Option.mem_toList.1 hown)]
      exact Nat.le_add_right _ _
    · exact Nat.le_trans (Nat.le_add_right _ _) (ih hmore)

theorem line_le_of_mem_listed {line : Nat} {cs : List Char} {item : Item}
    (h : item ∈ listed line (cuts cs)) : item.line ≤ lineAfter line cs := by
  fun_induction cuts cs generalizing line with
  | case1 => cases h
  | case2 c cs ih =>
    rw [listed, List.mem_append] at h
    rw [← lineAfter_cut]
    rcases h with hown | hmore
    · rw [Cut.line_of_item? (Option.mem_toList.1 hown)]
      exact Nat.le_add_right _ _
    · exact ih hmore

theorem pairwise_listed (line : Nat) (pieces : List Cut) :
    (listed line pieces).Pairwise fun item later => item.line ≤ later.line := by
  induction pieces generalizing line with
  | nil => exact .nil
  | cons piece more ih =>
    rw [listed, List.pairwise_append]
    refine ⟨?_, ih _, ?_⟩
    · cases piece.item? (line + piece.text.count '\n') <;> simp
    · intro item hown later hmore
      rw [Cut.line_of_item? (Option.mem_toList.1 hown)]
      exact le_line_of_mem_listed hmore

/-- Lines never decrease along the items, and all of them are lines of the source. -/
theorem lines_ordered (source : String) :
    (items source).Pairwise (fun item later => item.line ≤ later.line) ∧
      ∀ item ∈ items source, 1 ≤ item.line ∧ item.line ≤ lineAfter 1 source.toList := by
  rw [items_eq]
  refine ⟨?_, ?_⟩
  · rw [List.pairwise_append]
    refine ⟨pairwise_listed 1 _, List.pairwise_singleton _ _, ?_⟩
    intro item hitem last hlast
    rw [List.mem_singleton.1 hlast]
    exact line_le_of_mem_listed hitem
  · intro item hitem
    rcases List.mem_append.1 hitem with hlisted | hlast
    · exact ⟨le_line_of_mem_listed hlisted, line_le_of_mem_listed hlisted⟩
    · rw [List.mem_singleton.1 hlast]
      exact ⟨Nat.le_add_right _ _, Nat.le_refl _⟩

/-! ## The line of a reader -/

namespace Cursor

variable {source : String}

/-- The cursor after the first `n` calls of a reader. -/
def afterCalls (source : String) : Nat → Option Cursor
  | 0 => some initial
  | n + 1 => do
    let c ← afterCalls source n
    let (_, d) ← nextItem source c
    return d

/-- A reader between two calls, and the items ahead of it. In the source it is on the line that
follows from what it has passed. -/
inductive Placed (source : String) : Cursor → List Item → Prop
  | inside {passed left : List Char} (start : Nat) : source.toList = passed ++ left →
    Placed source ⟨start, width passed, lineAfter 1 passed⟩
      (listed (lineAfter 1 passed) (cuts left) ++
        [.token (.endOfInput (lineAfter 1 source.toList))])
  | behind {c : Cursor} : source.toUTF8.size < c.next → Placed source c []

/-- The item is about a text of the source that ends at the cursor, and stands on the line that
the line ends up to there give. Behind the end of input the cursor is one byte further. -/
def Locates (source : String) (d : Cursor) (item : Item) : Prop :=
  ∃ passed text left, source.toList = passed ++ (text ++ left) ∧
    width (passed ++ text) = min d.next source.toUTF8.size ∧ item.Covers text ∧
    item.line = 1 + (passed ++ text).count '\n'

theorem placed_initial (source : String) : Placed source initial (items source) := by
  rw [items_eq]
  have hstart : source.toList = [] ++ source.toList := rfl
  exact .inside 0 hstart

theorem width_le_size {passed left : List Char} (hsource : source.toList = passed ++ left) :
    width passed ≤ source.toUTF8.size := by
  rw [size_toUTF8, hsource, width_append]
  exact Nat.le_add_right _ _

/-- A call hands out the item ahead, located where the call leaves the reader. -/
theorem Placed.nextItem {c : Cursor} {ahead : List Item} (h : Placed source c ahead) :
    ∃ d, nextItem source c = some (ahead.head?, d) ∧ Placed source d ahead.tail ∧
      ∀ item ∈ ahead.head?, Locates source d item := by
  cases h with
  | @inside passed left start hsource =>
    cases hlisted : listed (lineAfter 1 passed) (cuts left) with
    | nil =>
      obtain ⟨d, hd, hnext⟩ := nextItem_last start _ hsource hlisted
      rw [lineAfter_append, ← hsource] at hnext
      refine ⟨d, hnext, .behind (hd ▸ Nat.lt_succ_self _), ?_⟩
      rintro item ⟨⟩
      refine ⟨source.toList, [], [], by simp, ?_, .token _, ?_⟩
      · rw [hd, List.append_nil, ← size_toUTF8]
        omega
      · rw [List.append_nil]
        rfl
    | cons own more =>
      obtain ⟨gap, text, rest, rfl, hcovers, hline, rfl, hnext⟩ :=
        nextItem_listed start _ hsource hlisted
      have hpassed : source.toList = passed ++ gap ++ text ++ rest := by simp [hsource]
      have hown : own.line = lineAfter 1 (passed ++ gap ++ text) := by
        rw [hline, lineAfter_append, List.append_assoc]
      have hcursor : amid (passed ++ gap) text (lineAfter (lineAfter 1 passed) gap) =
          ⟨width (passed ++ gap), width (passed ++ gap ++ text),
            lineAfter 1 (passed ++ gap ++ text)⟩ := by
        rw [← lineAfter_append 1, ← lineAfter_append 1]
        rfl
      rw [hcursor] at hnext
      refine ⟨_, hnext, ?_, ?_⟩
      · rw [hown]
        exact .inside _ hpassed
      · rintro item ⟨⟩
        refine ⟨passed ++ gap, text, rest, by simp [hsource], ?_, hcovers, hown⟩
        exact (Nat.min_eq_left (width_le_size hpassed)).symm
  | behind hlt =>
    refine ⟨c, ?_, .behind hlt, by rintro item ⟨⟩⟩
    rw [Cursor.nextItem, if_pos hlt]
    rfl

theorem afterCalls_placed (source : String) (n : Nat) :
    ∃ c, afterCalls source n = some c ∧ Placed source c ((items source).drop n) := by
  induction n with
  | zero => exact ⟨initial, rfl, placed_initial source⟩
  | succ n ih =>
    obtain ⟨c, hc, hplaced⟩ := ih
    obtain ⟨d, hnext, hmore, _⟩ := hplaced.nextItem
    rw [List.tail_drop] at hmore
    refine ⟨d, ?_, hmore⟩
    simp [afterCalls, hc, hnext]

end Cursor

/-- Each call of a reader hands out the next item of the scan, on the line that the line ends up to
the end of its text give, wherever they stand. The end of input comes last and is on the line of
the end of the source, and no line is below the one before it. -/
theorem lines_exact (source : String) :
    (∀ n, ∃ c d, Cursor.afterCalls source n = some c ∧
      Cursor.nextItem source c = some ((items source)[n]?, d) ∧
      ∀ item ∈ (items source)[n]?, Cursor.Locates source d item) ∧
    (items source).getLast? = some (.token (.endOfInput (1 + source.toList.count '\n'))) ∧
    (items source).Pairwise fun item later => item.line ≤ later.line := by
  refine ⟨?_, ?_, (lines_ordered source).1⟩
  · intro n
    obtain ⟨c, hc, hplaced⟩ := Cursor.afterCalls_placed source n
    obtain ⟨d, hnext, _, hlocates⟩ := hplaced.nextItem
    rw [List.head?_drop] at hnext hlocates
    exact ⟨c, d, hc, hnext, hlocates⟩
  · rw [items_eq, List.getLast?_concat]
    rfl

/-- Line ends in a string, behind a comment, behind a carriage return and behind a character that
begins nothing. -/
theorem scatteredLineEnds_exact :
    items "\"a\n\"//b\n\r\n@\n;" = [.token ⟨.string "a\n", "\"a\n\"", 2⟩,
      .fault (.unexpected '@') 4, .token ⟨.symbol .semicolon, ";", 5⟩, .token (.endOfInput 5)] ∧
    ∃ d, Cursor.Locates "\"a\n\"//b\n\r\n@\n;" d (.fault (.unexpected '@') 4) := by
  have hitems : items "\"a\n\"//b\n\r\n@\n;" = [.token ⟨.string "a\n", "\"a\n\"", 2⟩,
      .fault (.unexpected '@') 4, .token ⟨.symbol .semicolon, ";", 5⟩, .token (.endOfInput 5)] := by
    have hchars : "\"a\n\"//b\n\r\n@\n;".toList =
      ['"', 'a', '\n', '"', '/', '/', 'b', '\n', '\r', '\n', '@', '\n', ';'] := by decide
    rw [items, hchars]
    rfl
  obtain ⟨c, d, _, _, hlocates⟩ := (lines_exact "\"a\n\"//b\n\r\n@\n;").1 1
  exact ⟨hitems, d, hlocates _ (by rw [hitems]; rfl)⟩

end TreeWalk.Scan

import TreeWalk.Proofs.Lines.Scan

/-!
A line end is a seam: no piece reaches over it, unless a string is left open. Two sources on lines
of their own list what each of them lists, the second one further down.
-/

namespace TreeWalk.Scan

/-- The item further down by some lines. -/
def Item.shift (lines : Nat) : Item → Item
  | token t => token { t with line := t.line + lines }
  | fault f line => fault f (line + lines)

/-- A text further down is cut into the same pieces, and lists the same items further down. -/
theorem listed_shift (lines line : Nat) (pieces : List Cut) :
    listed (line + lines) pieces = (listed line pieces).map (Item.shift lines) := by
  induction pieces generalizing line with
  | nil => rfl
  | cons piece more ih =>
    have hline : line + lines + piece.text.count '\n' = line + piece.text.count '\n' + lines :=
      Nat.add_right_comm _ _ _
    rw [listed, hline, ih, listed, List.map_append]
    congr 1
    unfold Cut.item?
    cases piece.piece <;> rfl

/-- A piece that is a fault is listed. -/
theorem fault_mem_listed {pieces : List Cut} {piece : Cut} {fault : LexicalFault}
    (hmem : piece ∈ pieces) (hpiece : piece.piece = .fault fault) (line : Nat) :
    ∃ last, Item.fault fault last ∈ listed line pieces := by
  induction pieces generalizing line with
  | nil => cases hmem
  | cons first more ih =>
    rw [listed]
    rcases List.mem_cons.1 hmem with rfl | hmore
    · refine ⟨line + piece.text.count '\n', List.mem_append_left _ ?_⟩
      rw [Cut.item?, hpiece]
      exact List.mem_singleton_self _
    · obtain ⟨last, hlast⟩ := ih hmore (line + first.text.count '\n')
      exact ⟨last, List.mem_append_right _ hlast⟩

/-- Scanning distributes over sources on lines of their own: where the first one leaves no string
open, its items without the end of input are followed by those of the second one, each further
down by the lines of the first. -/
theorem items_joined (source source' : String)
    (h : ∀ line, .fault .unterminated line ∉ items source) :
    items (joined source source') =
      (items source).dropLast ++
        (items source').map (Item.shift (1 + source.toList.count '\n')) ∧
    items source = (items source).dropLast ++
      [.token (.endOfInput (1 + source.toList.count '\n'))] := by
  have hclosed : ∀ piece ∈ cuts source.toList, piece.piece ≠ .fault .unterminated := by
    intro piece hmem hpiece
    obtain ⟨last, hlast⟩ := fault_mem_listed hmem hpiece 1
    apply h last
    rw [items_eq]
    exact List.mem_append_left _ hlast
  have hown : (items source).dropLast = listed 1 (cuts source.toList) := by
    rw [items_eq, List.dropLast_concat]
  have hlines : lineAfter 1 source.toList + 1 = 1 + (1 + source.toList.count '\n') :=
    Nat.add_comm _ _
  have hend : lineAfter 1 (source.toList ++ '\n' :: source'.toList) =
      lineAfter 1 source'.toList + (1 + source.toList.count '\n') := by
    simp only [lineAfter, List.count_append, List.count_cons_self]
    omega
  refine ⟨?_, by rw [hown, items_eq]; rfl⟩
  calc items (joined source source')
      = listed 1 (cuts (source.toList ++ '\n' :: source'.toList)) ++
          [.token (.endOfInput (lineAfter 1 (source.toList ++ '\n' :: source'.toList)))] := by
        rw [items_eq, toList_joined]
    _ = listed 1 (cuts source.toList) ++
          (listed (1 + (1 + source.toList.count '\n')) (cuts source'.toList) ++
            [.token (.endOfInput (lineAfter 1 source'.toList +
              (1 + source.toList.count '\n')))]) := by
        rw [listed_join 1 source.toList source'.toList hclosed, hlines, hend, List.append_assoc]
    _ = (items source).dropLast ++
          (items source').map (Item.shift (1 + source.toList.count '\n')) := by
        rw [hown, listed_shift, items_eq source', List.map_append]
        rfl

/-- A comment, a numeral with a point behind it and a character that begins nothing before the
seam. -/
theorem openComment_joined :
    items "\n7.é//" = [.token ⟨.number (Number.Decimal.ofNumeral ['7']).toFloat, "7", 2⟩,
      .token ⟨.symbol .dot, ".", 2⟩, .fault (.unexpected 'é') 2, .token (.endOfInput 2)] ∧
    items (joined "\n7.é//" "=") = [
      .token ⟨.number (Number.Decimal.ofNumeral ['7']).toFloat, "7", 2⟩,
      .token ⟨.symbol .dot, ".", 2⟩, .fault (.unexpected 'é') 2,
      .token ⟨.symbol .equal, "=", 3⟩, .token (.endOfInput 3)] := by
  have hitems : items "\n7.é//" =
      [.token ⟨.number (Number.Decimal.ofNumeral ['7']).toFloat, "7", 2⟩,
        .token ⟨.symbol .dot, ".", 2⟩, .fault (.unexpected 'é') 2, .token (.endOfInput 2)] := by
    have hchars : "\n7.é//".toList = ['\n', '7', '.', 'é', '/', '/'] := by decide
    rw [items, hchars]
    rfl
  have hclosed : ∀ line, Item.fault .unterminated line ∉ items "\n7.é//" := by
    intro line
    rw [hitems]
    simp
  refine ⟨hitems, ?_⟩
  rw [(items_joined _ _ hclosed).1, hitems]
  rfl

end TreeWalk.Scan

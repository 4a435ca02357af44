import TreeWalk.Proofs.Grammar.Lookahead
import TreeWalk.Proofs.Lines.Bare
import TreeWalk.Proofs.Token.Tiling

/-!
The scanner counts lines but does not act on them. A text lists the same items from every line on,
up to lines; and two texts with a line end between them list what each of them does.
-/

namespace TreeWalk.Scan

/-- The tokens that a text from the given line on lists, without the end of input. -/
def written (line : Nat) (cs : List Char) : List Token :=
  (listed line (cuts cs)).filterMap Item.token?

/-- No piece of the text is a fault. -/
def Faultless (cs : List Char) : Prop := ∀ piece ∈ cuts cs, ∀ fault, piece.piece ≠ .fault fault

theorem tokens_eq (source : String) :
    tokens source = written 1 source.toList ++ [.endOfInput (lineAfter 1 source.toList)] := by
  rw [tokens, items_eq, List.filterMap_append]
  rfl

theorem reports_listed {line : Nat} {pieces : List Cut} :
    (listed line pieces).filterMap Item.report? = [] ↔
      ∀ piece ∈ pieces, ∀ fault, piece.piece ≠ .fault fault := by
  induction pieces generalizing line with
  | nil => simp [listed]
  | cons piece more ih =>
    rw [listed, List.filterMap_append, List.append_eq_nil_iff, ih, List.forall_mem_cons]
    refine and_congr ?_ Iff.rfl
    rw [Cut.item?]
    cases piece.piece <;> simp [Item.report?]

theorem reports_eq_nil {source : String} : reports source = [] ↔ Faultless source.toList := by
  rw [reports, items_eq, List.filterMap_append, List.append_eq_nil_iff, reports_listed]
  exact and_iff_left rfl

theorem listed_bare (line line' : Nat) (pieces : List Cut) :
    ((listed line pieces).filterMap Item.token?).map Token.bare =
      ((listed line' pieces).filterMap Item.token?).map Token.bare := by
  induction pieces generalizing line line' with
  | nil => rfl
  | cons piece more ih =>
    have hmore := ih (line + piece.text.count '\n') (line' + piece.text.count '\n')
    simp only [listed, Cut.item?, List.filterMap_append, List.map_append, hmore]
    cases piece.piece <;> rfl

theorem written_bare (line line' : Nat) (cs : List Char) :
    (written line cs).map Token.bare = (written line' cs).map Token.bare :=
  listed_bare line line' (cuts cs)

theorem inner_written (line : Nat) (cs : List Char) : Grammar.Inner (written line cs) := by
  intro t ht
  obtain ⟨item, hitem, htoken⟩ := List.mem_filterMap.1 ht
  cases item with
  | token u =>
    cases htoken
    rw [Bool.eq_false_iff, Ne, Token.is_iff]
    exact kind_of_mem_listed hitem
  | fault fault line => cases htoken

/-- Two sources, the second one on a line of its own behind the first. -/
def joined (source source' : String) : String := source ++ "\n" ++ source'

theorem toList_joined (source source' : String) :
    (joined source source').toList = source.toList ++ '\n' :: source'.toList := by
  simp [joined]

section

variable {cs ds : List Char} (h : Faultless cs)
include h

theorem written_join (line : Nat) :
    written line (cs ++ '\n' :: ds) = written line cs ++ written (lineAfter line cs + 1) ds := by
  have hclosed : ∀ piece ∈ cuts cs, piece.piece ≠ .fault .unterminated :=
    fun piece hpiece => h piece hpiece _
  rw [written, listed_join line cs ds hclosed, List.filterMap_append]
  rfl

theorem faultless_join (h' : Faultless ds) : Faultless (cs ++ '\n' :: ds) := by
  have hclosed : ∀ piece ∈ cuts cs, piece.piece ≠ .fault .unterminated :=
    fun piece hpiece => h piece hpiece _
  apply reports_listed.1
  rw [listed_join 1 cs ds hclosed, List.filterMap_append, reports_listed.2 h,
    reports_listed.2 h', List.append_nil]

end

end TreeWalk.Scan

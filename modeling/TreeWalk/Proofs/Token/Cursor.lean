import TreeWalk.Proofs.Token.Bytes

/-!
The scan byte by byte. A cursor stands at a byte position of the source and looks at no more than
the next two bytes; at the end it sees a zero in place of a byte. An access outside the source and
a slice that is not between characters stop the reader for good. It reads the same items as the
scan by characters, so neither ever happens.
-/

namespace TreeWalk.Scan

/-- The piece being read starts at byte `start`, and `next` is the byte to be read next. -/
structure Cursor where
  start : Nat
  next : Nat
  line : Nat

namespace Cursor

section

variable (source : String)

/-- The byte at a position, as the character it writes if it writes one alone. -/
def byte? (i : Nat) : Option Char := source.toUTF8[i]?.map Char.ofUInt8

def atEnd (i : Nat) : Bool := source.toUTF8.size ≤ i

/-- The byte at a position, or a zero from the end of the source on. -/
def peek (i : Nat) : Char := (byte? source i).getD '\x00'

/-- The cursor behind the byte `b`, which may end a line. -/
def past (b : Char) (c : Cursor) : Cursor :=
  ⟨c.start, c.next + 1, if b = '\n' then c.line + 1 else c.line⟩

def advance (c : Cursor) : Option Cursor := do
  let b ← byte? source c.next
  return c.past b

/-- Advances as long as `p` holds of the position. -/
def advanceWhile (p : Nat → Bool) (c : Cursor) : Option Cursor :=
  if p c.next then
    match _h : byte? source c.next with
    | some b => advanceWhile p (c.past b)
    | none => none
  else some c
  termination_by source.toUTF8.size - c.next
  decreasing_by
    have hlt : c.next < source.toUTF8.size := by
      by_contra hge
      rw [byte?, getElem?_neg source.toUTF8 c.next hge] at _h
      cases _h
    simp only [past]
    omega

/-- The text of the piece read so far. -/
def lexeme (c : Cursor) : Option String := slice? source c.start c.next

/-- Reads a fraction, if a point and a digit are next. -/
def readFraction (c : Cursor) : Option Cursor :=
  if peek source c.next == '.' && isDigit (peek source (c.next + 1)) then do
    let c ← advance source c
    advanceWhile source (fun i => isDigit (peek source i)) c
  else some c

def readNumeral (c : Cursor) : Option (Piece × Cursor) := do
  let c ← advanceWhile source (fun i => isDigit (peek source i)) c
  let c ← readFraction source c
  let text ← lexeme source c
  return (.token (.number (Number.Decimal.ofNumeral text.toList).toFloat), c)

def readWord (c : Cursor) : Option (Piece × Cursor) := do
  let c ← advanceWhile source (fun i => isWordPart (peek source i)) c
  let text ← lexeme source c
  return (.token (.symbol (((Keyword.ofSpelling? text).map .keyword).getD .identifier)), c)

def readQuoted (c : Cursor) : Option (Piece × Cursor) := do
  let c ← advanceWhile source (fun i => !atEnd source i && peek source i != '"') c
  if atEnd source c.next then return (.fault .unterminated, c)
  let c ← advance source c
  let contents ← slice? source (c.start + 1) (c.next - 1)
  return (.token (.string contents), c)

def readComment (c : Cursor) : Option (Piece × Cursor) := do
  let c ← advanceWhile source (fun i => !atEnd source i && peek source i != '\n') c
  return (.skipped, c)

/-- One character that begins nothing, with all its bytes. -/
def readUnexpected (c : Cursor) : Option (Piece × Cursor) := do
  let c ← advanceWhile source (fun i => !atEnd source i && isContinuation (peek source i)) c
  let text ← lexeme source c
  match text.toList with
  | [d] => return (.fault (.unexpected d), c)
  | _ => none

/-- The mark that the byte `b` alone writes, if it is one. -/
def readSingle (b : Char) (c : Cursor) : Option (Piece × Cursor) :=
  match single? b with
  | some symbol => some (.token (.symbol symbol), c)
  | none => readUnexpected source c

/-- A mark that begins with the byte `b`. -/
def readMark (b : Char) (c : Cursor) : Option (Piece × Cursor) :=
  match withEqual? b with
  | some symbol =>
    if peek source c.next == '=' then do
      let c ← advance source c
      return (.token (.symbol symbol), c)
    else readSingle source b c
  | none => readSingle source b c

/-- Reads the piece that starts at the cursor. -/
def readPiece (c : Cursor) : Option (Piece × Cursor) := do
  let b ← byte? source c.next
  let c := past b ⟨c.next, c.next, c.line⟩
  if isBlank b then return (.skipped, c)
  else if isDigit b then readNumeral source c
  else if isLetter b then readWord source c
  else if b == '"' then readQuoted source c
  else if b == '/' && peek source c.next == '/' then readComment source c
  else readMark source b c

end

/-! ## What the cursor sees -/

/-- The bytes of a text, as the reader sees them. -/
def seen (cs : List Char) : List Char := (encoded cs).map Char.ofUInt8

theorem seen_append (cs ds : List Char) : seen (cs ++ ds) = seen cs ++ seen ds := by
  rw [seen, encoded_append, List.map_append]
  rfl

theorem seen_cons (c : Char) (cs : List Char) : seen (c :: cs) = seen [c] ++ seen cs :=
  seen_append [c] cs

theorem length_seen (cs : List Char) : (seen cs).length = width cs := List.length_map _

theorem seen_low {c : Char} (h : c < '\x80') : seen [c] = [c] := by
  simpa [seen, encoded] using utf8EncodeChar_low h

theorem seen_high {c : Char} (h : ¬ c < '\x80') {b : Char} (hb : b ∈ seen [c]) : '\x80' ≤ b := by
  have hb : b ∈ (String.utf8EncodeChar c).map Char.ofUInt8 := by simpa [seen, encoded] using hb
  obtain ⟨byte, hbyte, rfl⟩ := List.mem_map.1 hb
  exact high_bytes h hbyte

/-- Line ends are counted alike in characters and in bytes. -/
theorem count_seen (c : Char) : (seen [c]).count '\n' = [c].count '\n' := by
  by_cases h : c < '\x80'
  · rw [seen_low h]
  · have hseen : '\n' ∉ seen [c] := fun hb => absurd (seen_high h hb) (by decide)
    have hc : '\n' ∉ [c] := by
      rw [List.mem_singleton]
      rintro rfl
      exact h (by decide)
    rw [List.count_eq_zero_of_not_mem hseen, List.count_eq_zero_of_not_mem hc]

theorem seen_head (c : Char) : ∃ first more, seen [c] = first :: more ∧
    isContinuation first = false ∧ ∀ b ∈ more, isContinuation b = true := by
  obtain ⟨first, more, hbytes, hfirst, hmore⟩ := head_utf8EncodeChar c
  refine ⟨Char.ofUInt8 first, more.map Char.ofUInt8, by simp [seen, encoded, hbytes], hfirst, ?_⟩
  intro b hb
  obtain ⟨byte, hbyte, rfl⟩ := List.mem_map.1 hb
  exact hmore byte hbyte

variable {source : String}

/-- What is left to be seen at a byte position. -/
def Sees (source : String) (i : Nat) (bytes : List Char) : Prop :=
  (seen source.toList).drop i = bytes

theorem Sees.byte? {i : Nat} {bytes : List Char} (h : Sees source i bytes) :
    byte? source i = bytes.head? := by
  rw [← h, List.head?_drop, Cursor.byte?, getElem?_toUTF8, seen, List.getElem?_map]

theorem Sees.next {i : Nat} {b : Char} {bytes : List Char} (h : Sees source i (b :: bytes)) :
    Sees source (i + 1) bytes := by
  rw [Sees, ← List.drop_drop, show _ = _ from h]
  rfl

theorem Sees.atEnd {i : Nat} {bytes : List Char} (h : Sees source i bytes) :
    atEnd source i = bytes.isEmpty := by
  rw [Bool.eq_iff_iff, Cursor.atEnd, decide_eq_true_eq, size_toUTF8, ← length_seen,
    ← List.drop_eq_nil_iff, show _ = _ from h, List.isEmpty_iff]

theorem sees_width {before cs : List Char} (h : source.toList = before ++ cs) :
    Sees source (width before) (seen cs) := by
  rw [Sees, h, seen_append, ← length_seen, List.drop_left]

/-! ## Loops -/

theorem advanceWhile_of_not {p : Nat → Bool} {c : Cursor} (h : p c.next = false) :
    advanceWhile source p c = some c := by
  rw [advanceWhile, h]
  rfl

/-- Bytes that pass the test are passed over. -/
theorem advanceWhile_bytes {p : Nat → Bool} {bytes more : List Char} {c : Cursor}
    (hsees : Sees source c.next (bytes ++ more))
    (hp : ∀ i b, byte? source i = some b → b ∈ bytes → p i = true) :
    advanceWhile source p c =
      advanceWhile source p ⟨c.start, c.next + bytes.length, c.line + bytes.count '\n'⟩ := by
  induction bytes generalizing c with
  | nil => rfl
  | cons b bytes ih =>
    have hbyte : byte? source c.next = some b := hsees.byte?
    have hnext := ih (c := c.past b) hsees.next fun i d hd hmem =>
      hp i d hd (List.mem_cons_of_mem _ hmem)
    rw [advanceWhile, hp c.next b hbyte List.mem_cons_self, if_pos rfl]
    split
    · next d hd =>
      obtain rfl : b = d := Option.some.inj (hbyte.symm.trans hd)
      rw [hnext]
      have hplace : c.next + 1 + bytes.length = c.next + (bytes.length + 1) := by omega
      have hline : (c.past b).line + bytes.count '\n' = c.line + (b :: bytes).count '\n' := by
        rw [past, List.count_cons]
        by_cases hb : b = '\n'
        · simp [hb]
          omega
        · simp [hb]
      rw [hline]
      simp only [past, List.length_cons, hplace]
    · next hnone =>
      rw [hbyte] at hnone
      cases hnone

/-- The condition `p` on positions is the condition `r` on the byte there, and false at the end. -/
def Tests (source : String) (p : Nat → Bool) (r : Char → Bool) : Prop :=
  ∀ i, p i = (byte? source i).any r

/-- A condition that the zero at the end does not meet needs no check for the end. -/
theorem tests_peek {r : Char → Bool} (hr : r '\x00' = false) :
    Tests source (fun i => r (peek source i)) r := by
  intro i
  change r ((byte? source i).getD '\x00') = _
  cases byte? source i <;> simp [hr]

theorem tests_guarded (source : String) (r : Char → Bool) :
    Tests source (fun i => !atEnd source i && r (peek source i)) r := by
  intro i
  have hsees : Sees source i ((seen source.toList).drop i) := rfl
  change (!atEnd source i && r ((byte? source i).getD '\x00')) = _
  rw [hsees.atEnd, hsees.byte?]
  cases (seen source.toList).drop i <;> simp

/-- The condition does not tell the bytes from 128 on apart. -/
def LowTest (r : Char → Bool) : Prop := ∀ b d : Char, '\x80' ≤ b → '\x80' ≤ d → r b = r d

/-- So it holds of the bytes of a character as it does of the character. -/
theorem LowTest.seen {r : Char → Bool} (hr : LowTest r) {c b : Char} (hb : b ∈ seen [c]) :
    r b = r c := by
  by_cases h : c < '\x80'
  · rw [seen_low h, List.mem_singleton] at hb
    rw [hb]
  · exact hr b c (seen_high h hb) (Char.not_lt.1 h)

/-- The cursor in a piece that starts behind `before` on the given line and has taken `taken`. -/
def amid (before taken : List Char) (line : Nat) : Cursor :=
  ⟨width before, width (before ++ taken), line + taken.count '\n'⟩

theorem advanceWhile_amid {p : Nat → Bool} {r : Char → Bool} (hp : Tests source p r)
    (hr : LowTest r) {before taken cs : List Char} (line : Nat)
    (hsource : source.toList = before ++ (taken ++ cs)) :
    advanceWhile source p (amid before taken line) =
      some (amid before (taken ++ cs.takeWhile r) line) := by
  induction cs generalizing taken with
  | nil =>
    have hend : source.toList = before ++ taken ++ [] := by simpa using hsource
    have hsees := sees_width hend
    have hstop : p (amid before taken line).next = false := by
      rw [hp]
      exact congrArg (Option.any r) hsees.byte?
    rw [advanceWhile_of_not hstop, List.takeWhile_nil, List.append_nil]
  | cons d cs ih =>
    have hsees : Sees source (amid before taken line).next (seen [d] ++ seen cs) := by
      rw [← seen_append]
      exact sees_width (by simpa using hsource)
    by_cases hd : r d = true
    · have hpass : ∀ i b, byte? source i = some b → b ∈ seen [d] → p i = true := by
        intro i b hbyte hb
        rw [hp, hbyte, Option.any_some, hr.seen hb, hd]
      have hnext : (⟨(amid before taken line).start,
          (amid before taken line).next + (seen [d]).length,
          (amid before taken line).line + (seen [d]).count '\n'⟩ : Cursor) =
            amid before (taken ++ [d]) line := by
        rw [count_seen, length_seen]
        simp only [amid, ← width_append, Nat.add_assoc, ← List.count_append, List.append_assoc]
      rw [advanceWhile_bytes hsees hpass, hnext, ih (by simpa using hsource),
        List.takeWhile_cons, if_pos hd, List.append_assoc, List.singleton_append]
    · have hstop : p (amid before taken line).next = false := by
        obtain ⟨b, more, hbytes, _⟩ := seen_head d
        have hb : b ∈ seen [d] := hbytes ▸ List.mem_cons_self
        rw [hp, hsees.byte?, hbytes, List.cons_append, List.head?_cons, Option.any_some,
          hr.seen hb, Bool.eq_false_iff]
        exact hd
      rw [advanceWhile_of_not hstop, List.takeWhile_cons, if_neg hd, List.append_nil]

/-! ## Pieces -/

section

variable {before taken cs : List Char} (line : Nat)

/-- The byte at the cursor meets a condition as the character there does. -/
theorem byte?_any {r : Char → Bool} (hr : LowTest r) (hsource : source.toList = before ++ cs) :
    (byte? source (width before)).any r = cs.head?.any r := by
  rw [(sees_width hsource).byte?]
  cases cs with
  | nil => rfl
  | cons d cs =>
    obtain ⟨b, more, hbytes, _⟩ := seen_head d
    have hb : b ∈ seen [d] := hbytes ▸ List.mem_cons_self
    have hseen : seen (d :: cs) = b :: more ++ seen cs := by
      rw [seen_cons, hbytes]
    rw [hseen, List.cons_append, List.head?_cons, List.head?_cons, Option.any_some,
      Option.any_some, hr.seen hb]

theorem peek_any {r : Char → Bool} (hr : LowTest r) (hzero : r '\x00' = false)
    (hsource : source.toList = before ++ cs) :
    r (peek source (width before)) = cs.head?.any r := by
  rw [← byte?_any hr hsource]
  exact tests_peek hzero (width before)

theorem advance_amid {d : Char} (hd : d < '\x80')
    (hsource : source.toList = before ++ (taken ++ d :: cs)) :
    advance source (amid before taken line) = some (amid before (taken ++ [d]) line) := by
  have hsees : Sees source (amid before taken line).next (d :: seen cs) := by
    have hseen : d :: seen cs = seen (d :: cs) := by
      rw [seen_cons, seen_low hd]
      rfl
    rw [hseen]
    exact sees_width (by simpa using hsource)
  have hplace : width (before ++ (taken ++ [d])) = width (before ++ taken) + 1 := by
    rw [← List.append_assoc, width_append, ← length_seen [d], seen_low hd]
    rfl
  rw [advance, hsees.byte?]
  simp only [amid, past, hplace, List.count_append, List.head?_cons]
  by_cases hline : d = '\n'
  · simp [hline, Nat.add_assoc]
  · simp [hline]

theorem lexeme_amid (hsource : source.toList = before ++ (taken ++ cs)) :
    lexeme source (amid before taken line) = some (String.ofList taken) :=
  slice?_eq hsource

theorem atEnd_amid (hsource : source.toList = before ++ (taken ++ cs)) :
    atEnd source (amid before taken line).next = cs.isEmpty := by
  have hrest : source.toList = before ++ taken ++ cs := by simpa using hsource
  have hsees := sees_width hrest
  rw [amid, hsees.atEnd]
  cases cs with
  | nil => rfl
  | cons d cs =>
    obtain ⟨b, more, hbytes, _⟩ := seen_head d
    rw [seen_cons, hbytes]
    rfl

theorem lowTest_of_false {r : Char → Bool} (h : ∀ b : Char, '\x80' ≤ b → r b = false) :
    LowTest r := fun b d hb hd => (h b hb).trans (h d hd).symm

theorem lowTest_not {r : Char → Bool} (h : LowTest r) : LowTest (fun b => !r b) :=
  fun b d hb hd => congrArg Bool.not (h b d hb hd)

theorem lowTest_eq {d : Char} (hd : d < '\x80') : LowTest (· == d) := by
  apply lowTest_of_false
  rintro b hb
  rw [beq_eq_false_iff_ne]
  rintro rfl
  exact absurd hb (Char.not_le.2 hd)

theorem lowTest_between {low high : Char} (h : high < '\x80') :
    LowTest (fun b => low ≤ b && b ≤ high) := by
  apply lowTest_of_false
  intro b hb
  have hgt : ¬ b ≤ high := fun hle => Char.not_le.2 h (Char.le_trans hb hle)
  simp [hgt]

theorem lowTest_or {p r : Char → Bool} (hp : LowTest p) (hr : LowTest r) :
    LowTest (fun b => p b || r b) := by
  intro b d hb hd
  exact congrArg₂ or (hp b d hb hd) (hr b d hb hd)

theorem lowTest_isDigit : LowTest isDigit := lowTest_between (by decide)

theorem lowTest_isLetter : LowTest isLetter :=
  lowTest_or (lowTest_or (lowTest_between (by decide)) (lowTest_between (by decide)))
    (lowTest_eq (by decide))

theorem lowTest_isWordPart : LowTest isWordPart := lowTest_or lowTest_isLetter lowTest_isDigit

theorem advanceWhile_isDigit (hsource : source.toList = before ++ (taken ++ cs)) :
    advanceWhile source (fun i => isDigit (peek source i)) (amid before taken line) =
      some (amid before (taken ++ cs.takeWhile isDigit) line) :=
  advanceWhile_amid (tests_peek (by decide)) lowTest_isDigit line hsource

theorem readFraction_amid (hsource : source.toList = before ++ (taken ++ cs)) :
    readFraction source (amid before taken line) =
      some (amid before (taken ++ (fraction cs).1) line) := by
  have hpoint : (peek source (amid before taken line).next == '.') = cs.head?.any (· == '.') :=
    peek_any (lowTest_eq (by decide)) (by decide) (by simpa using hsource)
  rw [readFraction, hpoint]
  match cs with
  | [] => simp [fraction]
  | c :: ds =>
    by_cases hc : c = '.'
    · subst hc
      have hadvance := advance_amid line (by decide) hsource
      have hdigit : isDigit (peek source ((amid before taken line).next + 1)) =
          ds.head?.any isDigit := by
        have hplace : (amid before taken line).next + 1 = width (before ++ (taken ++ ['.'])) := by
          simp only [amid, width_append, Nat.add_assoc]
          rfl
        rw [hplace]
        exact peek_any lowTest_isDigit (by decide) (by simpa using hsource)
      have hrest : source.toList = before ++ (taken ++ ['.'] ++ ds) := by simpa using hsource
      have hloop := advanceWhile_isDigit line hrest
      rw [hdigit]
      cases ds with
      | nil => simp [fraction]
      | cons d ds =>
        by_cases hd : isDigit d <;> simp [fraction, hd, hadvance, hloop]
    · simp [fraction, hc]

theorem readNumeral_amid {c : Char} (hsource : source.toList = before ++ c :: cs) :
    readNumeral source (amid before [c] line) =
      some ((numeral c cs).piece, amid before (numeral c cs).text line) := by
  have hfirst : source.toList = before ++ ([c] ++ cs) := by simpa using hsource
  have hdigits := advanceWhile_isDigit line hfirst
  have hrest : source.toList = before ++
      ([c] ++ cs.takeWhile isDigit ++ cs.dropWhile isDigit) := by simpa using hsource
  have hfraction := readFraction_amid line hrest
  have htext : source.toList = before ++
      (([c] ++ cs.takeWhile isDigit ++ (fraction (cs.dropWhile isDigit)).1) ++
        (fraction (cs.dropWhile isDigit)).2) := by
    rw [List.append_assoc _ _ (fraction (cs.dropWhile isDigit)).2, fraction_append]
    exact hrest
  have hlexeme := lexeme_amid line htext
  simp only [readNumeral, hdigits, hfraction, hlexeme, Option.bind_eq_bind, Option.bind_some,
    numeral, String.toList_ofList]
  rfl

theorem readWord_amid {c : Char} (hsource : source.toList = before ++ c :: cs) :
    readWord source (amid before [c] line) =
      some ((word c cs).piece, amid before (word c cs).text line) := by
  have hfirst : source.toList = before ++ ([c] ++ cs) := by simpa using hsource
  have hparts := advanceWhile_amid (tests_peek (by decide)) lowTest_isWordPart line hfirst
  have hrest : source.toList = before ++
      ([c] ++ cs.takeWhile isWordPart ++ cs.dropWhile isWordPart) := by simpa using hsource
  have hlexeme := lexeme_amid line hrest
  simp only [readWord, hparts, hlexeme, Option.bind_eq_bind, Option.bind_some]
  rfl

theorem readComment_amid (hsource : source.toList = before ++ '/' :: cs) :
    readComment source (amid before ['/'] line) =
      some ((comment cs).piece, amid before (comment cs).text line) := by
  have hfirst : source.toList = before ++ (['/'] ++ cs) := by simpa using hsource
  have hbody := advanceWhile_amid (tests_guarded source (· != '\n'))
    (lowTest_not (lowTest_eq (by decide))) line hfirst
  rw [readComment, hbody]
  rfl

theorem readQuoted_amid (hsource : source.toList = before ++ '"' :: cs) :
    readQuoted source (amid before ['"'] line) =
      some ((quoted cs).piece, amid before (quoted cs).text line) := by
  have hall := List.takeWhile_append_dropWhile (p := (· != '"')) (l := cs)
  have hfirst : source.toList = before ++ (['"'] ++ cs) := by simpa using hsource
  have hcontents := advanceWhile_amid (tests_guarded source (· != '"'))
    (lowTest_not (lowTest_eq (by decide))) line hfirst
  have hrest : source.toList = before ++ (['"'] ++ cs.takeWhile (· != '"') ++
      cs.dropWhile (· != '"')) := by simpa using hsource
  have hend := atEnd_amid line hrest
  rw [readQuoted, hcontents]
  simp only [Option.bind_eq_bind, Option.bind_some, hend]
  cases hdrop : cs.dropWhile (· != '"') with
  | nil => simp [quoted, hdrop]
  | cons quote rest =>
    have hquote : quote = '"' := by
      have hnot := List.head?_dropWhile_not (· != '"') cs
      rw [hdrop] at hnot
      simpa using hnot
    subst hquote
    rw [hdrop] at hrest
    have hadvance := advance_amid line (by decide) hrest
    let closed := amid before (['"'] ++ cs.takeWhile (· != '"') ++ ['"']) line
    have hslice : slice? source (closed.start + 1) (closed.next - 1) =
        some (String.ofList (cs.takeWhile (· != '"'))) := by
      have hquotes : width ['"'] = 1 := rfl
      have hclose : closed.next - 1 = width (before ++ ['"'] ++ cs.takeWhile (· != '"')) := by
        simp only [closed, amid, width_append, hquotes]
        omega
      have hopen : closed.start + 1 = width (before ++ ['"']) := by
        rw [width_append, hquotes]
        rfl
      rw [hclose, hopen]
      have hinside : source.toList = before ++ ['"'] ++
          (cs.takeWhile (· != '"') ++ '"' :: rest) := by simpa using hrest
      exact slice?_eq hinside
    simp only [List.isEmpty_cons, Bool.false_eq_true, if_false, hadvance, Option.bind_some,
      closed, hslice, quoted, hdrop]
    rfl

/-- Behind all bytes of a character the cursor has taken the character. -/
theorem past_bytes {c b : Char} {more : List Char} (hbytes : seen [c] = b :: more) :
    (⟨width before, width before + 1 + more.length,
      (past b ⟨width before, width before, line⟩).line + more.count '\n'⟩ : Cursor) =
        amid before [c] line := by
  have hlength : width before + 1 + more.length = width (before ++ [c]) := by
    rw [width_append, ← length_seen [c], hbytes, List.length_cons]
    omega
  have hcount : (past b ⟨width before, width before, line⟩).line + more.count '\n' =
      line + [c].count '\n' := by
    rw [← count_seen, hbytes, past, List.count_cons]
    by_cases hb : b = '\n'
    · simp [hb]
      omega
    · simp [hb]
  rw [hlength, hcount]
  rfl

theorem past_amid {c : Char} (hc : c < '\x80') :
    past c ⟨width before, width before, line⟩ = amid before [c] line :=
  past_bytes line (seen_low hc)

/-- No character begins with a byte that continues one. -/
theorem isContinuation_any (hsource : source.toList = before ++ cs) :
    (byte? source (width before)).any isContinuation = false := by
  rw [(sees_width hsource).byte?]
  cases cs with
  | nil => rfl
  | cons d cs =>
    obtain ⟨first, rest, hseen, hfirst, _⟩ := seen_head d
    rw [seen_cons, hseen]
    exact hfirst

/-- Behind the first byte of a character all that continues it is taken, and no more. -/
theorem advanceWhile_isContinuation {c b : Char} {more : List Char}
    (hsource : source.toList = before ++ c :: cs) (hbytes : seen [c] = b :: more) :
    advanceWhile source (fun i => !atEnd source i && isContinuation (peek source i))
      (past b ⟨width before, width before, line⟩) = some (amid before [c] line) := by
  let p : Nat → Bool := fun i => !atEnd source i && isContinuation (peek source i)
  have hp : Tests source p isContinuation := tests_guarded source isContinuation
  have hmore : ∀ d ∈ more, isContinuation d = true := by
    obtain ⟨first, rest, hseen, _, hrest⟩ := seen_head c
    obtain ⟨_, rfl⟩ := List.cons.inj (hbytes.symm.trans hseen)
    exact hrest
  have hsees : Sees source (width before) (b :: (more ++ seen cs)) := by
    have hseen : b :: (more ++ seen cs) = seen (c :: cs) := by
      rw [seen_cons, hbytes]
      rfl
    rw [hseen]
    exact sees_width hsource
  have hloop := advanceWhile_bytes (c := past b ⟨width before, width before, line⟩) (p := p)
    hsees.next fun i d hd hmem => by rw [hp, hd, Option.any_some, hmore d hmem]
  have hrest : source.toList = before ++ [c] ++ cs := by simpa using hsource
  have hstop : p (amid before [c] line).next = false := by
    rw [hp]
    exact isContinuation_any hrest
  refine hloop.trans ?_
  change advanceWhile source p ⟨width before, width before + 1 + more.length, _⟩ = _
  rw [past_bytes line hbytes, advanceWhile_of_not hstop]

theorem readUnexpected_amid {c b : Char} {more : List Char}
    (hsource : source.toList = before ++ c :: cs) (hbytes : seen [c] = b :: more) :
    readUnexpected source (past b ⟨width before, width before, line⟩) =
      some (.fault (.unexpected c), amid before [c] line) := by
  have hadvance := advanceWhile_isContinuation line hsource hbytes
  have hfirst : source.toList = before ++ ([c] ++ cs) := by simpa using hsource
  have hlexeme := lexeme_amid line hfirst
  simp only [readUnexpected, hadvance, hlexeme, Option.bind_eq_bind, Option.bind_some,
    String.toList_ofList]
  rfl

theorem readSingle_amid {c : Char} (hc : c < '\x80')
    (hsource : source.toList = before ++ c :: cs)
    (hpair : ∀ symbol rest, withEqual? c = some symbol → cs ≠ '=' :: rest) :
    readSingle source c (amid before [c] line) =
      some ((mark c cs).piece, amid before (mark c cs).text line) := by
  rw [readSingle, mark_of_not_pair hpair]
  cases single? c with
  | some symbol => rfl
  | none =>
    have hunexpected := readUnexpected_amid line hsource (seen_low hc)
    rwa [past_amid line hc] at hunexpected

theorem readMark_amid {c : Char} (hc : c < '\x80') (hsource : source.toList = before ++ c :: cs) :
    readMark source c (amid before [c] line) =
      some ((mark c cs).piece, amid before (mark c cs).text line) := by
  have hequal : (peek source (amid before [c] line).next == '=') = cs.head?.any (· == '=') :=
    peek_any (lowTest_eq (by decide)) (by decide) (by simpa using hsource)
  rw [readMark, hequal]
  cases hsymbol : withEqual? c with
  | none => exact readSingle_amid line hc hsource fun _ _ h => nomatch hsymbol.symm.trans h
  | some symbol =>
    by_cases hnext : ∃ rest, cs = '=' :: rest
    · obtain ⟨rest, rfl⟩ := hnext
      have hfirst : source.toList = before ++ ([c] ++ '=' :: rest) := by simpa using hsource
      have hadvance := advance_amid line (by decide) hfirst
      simp [hadvance, mark, hsymbol]
    · have hnot : cs.head?.any (· == '=') = false := by
        cases cs with
        | nil => rfl
        | cons d ds =>
          have hd : d ≠ '=' := fun h => hnext ⟨ds, by rw [h]⟩
          simp [hd]
      rw [hnot]
      exact readSingle_amid line hc hsource fun _ rest _ h => hnext ⟨rest, h⟩

/-- No rule begins with a byte or a character from 128 on. -/
theorem begins_nothing {b : Char} (hb : '\x80' ≤ b) :
    isBlank b = false ∧ isDigit b = false ∧ isLetter b = false ∧ b ≠ '"' ∧ b ≠ '/' ∧
      withEqual? b = none ∧ single? b = none := by
  have hne : ∀ {d : Char}, d < '\x80' → b ≠ d := fun hd h => Char.not_le.2 hd (h ▸ hb)
  have hle : ∀ {d : Char}, d < '\x80' → ¬ b ≤ d := fun hd h =>
    Char.not_le.2 hd (Char.le_trans hb h)
  have hpair : withEqual? b = none := by
    unfold withEqual?
    split <;> first | rfl | exact absurd rfl (hne (by decide))
  have hsingle : single? b = none := by
    unfold single?
    split <;> first | rfl | exact absurd rfl (hne (by decide))
  exact ⟨by simp [isBlank, hne], by simp [isDigit, hle], by simp [isLetter, hle, hne],
    hne (by decide), hne (by decide), hpair, hsingle⟩

theorem cut_high {c : Char} (hc : '\x80' ≤ c) (cs : List Char) :
    cut c cs = ⟨.fault (.unexpected c), [c], cs⟩ := by
  obtain ⟨hblank, hdigit, hletter, hquote, hslash, hpair, hsingle⟩ := begins_nothing hc
  simp [cut, hblank, hdigit, hletter, hquote, hslash, mark, hpair, hsingle]

/-- At a character the cursor reads what is cut there. -/
theorem readPiece_amid {c : Char} (start : Nat) (hsource : source.toList = before ++ c :: cs) :
    readPiece source ⟨start, width before, line⟩ =
      some ((cut c cs).piece, amid before (cut c cs).text line) := by
  obtain ⟨b, more, hbytes, _⟩ := seen_head c
  have hb : b ∈ seen [c] := hbytes ▸ List.mem_cons_self
  have hbyte : byte? source (width before) = some b := by
    have hseen : seen (c :: cs) = b :: more ++ seen cs := by
      rw [seen_cons, hbytes]
    rw [(sees_width hsource).byte?, hseen]
    rfl
  by_cases hc : c < '\x80'
  · rw [seen_low hc, List.mem_singleton] at hb
    subst hb
    have hslash : (peek source (amid before [b] line).next == '/') = (cs.head? == some '/') := by
      have hrest : source.toList = before ++ [b] ++ cs := by simpa using hsource
      have hlow : LowTest (· == '/') := lowTest_eq (by decide)
      rw [amid, peek_any hlow (by decide) hrest]
      cases cs <;> rfl
    simp only [readPiece, hbyte, Option.bind_eq_bind, Option.bind_some, past_amid line hc, hslash,
      cut]
    split
    · rfl
    split
    · exact readNumeral_amid line hsource
    split
    · exact readWord_amid line hsource
    split
    · next hquote =>
      obtain rfl := beq_iff_eq.1 hquote
      exact readQuoted_amid line hsource
    split
    · next hcomment =>
      obtain rfl := beq_iff_eq.1 (Bool.and_eq_true_iff.1 hcomment).1
      exact readComment_amid line hsource
    · exact readMark_amid line hc hsource
  · have hhigh := Char.not_lt.1 hc
    obtain ⟨hblank, hdigit, hletter, hquote, hslash, hpair, hsingle⟩ :=
      begins_nothing (seen_high hc hb)
    have hread := readUnexpected_amid line hsource hbytes
    rw [cut_high hhigh]
    simpa [readPiece, hbyte, hblank, hdigit, hletter, hquote, hslash, readMark, hpair, readSingle,
      hsingle] using hread

end

end Cursor

end TreeWalk.Scan

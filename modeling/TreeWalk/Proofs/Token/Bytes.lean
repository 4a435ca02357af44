import TreeWalk.Proofs.Token.Tiling

/-!
The UTF-8 bytes of a text. A character below 128 is one byte, its own number; every other one is
a byte from 192 on and then continuation bytes, from 128 up to 191. So a byte that writes a
character alone is never part of another one, and a character ends where the next byte is no
continuation.
-/

namespace TreeWalk.Scan

def encoded (cs : List Char) : List UInt8 := cs.flatMap String.utf8EncodeChar

/-- The number of bytes of a text. -/
def width (cs : List Char) : Nat := (encoded cs).length

theorem encoded_append (cs ds : List Char) : encoded (cs ++ ds) = encoded cs ++ encoded ds :=
  List.flatMap_append

theorem width_append (cs ds : List Char) : width (cs ++ ds) = width cs + width ds := by
  rw [width, encoded_append, List.length_append]
  rfl

theorem toUTF8_ofList (cs : List Char) : (String.ofList cs).toUTF8 = (encoded cs).toByteArray :=
  String.toByteArray_ofList

theorem toUTF8_eq (source : String) : source.toUTF8 = (encoded source.toList).toByteArray := by
  conv => lhs; rw [← String.ofList_toList (s := source)]
  exact toUTF8_ofList source.toList

theorem size_toUTF8 (source : String) : source.toUTF8.size = width source.toList := by
  rw [toUTF8_eq, List.size_toByteArray]
  rfl

theorem getElem?_toUTF8 (source : String) (i : Nat) :
    source.toUTF8[i]? = (encoded source.toList)[i]? := by
  rw [toUTF8_eq]
  by_cases h : i < (encoded source.toList).length
  · have h' : i < (encoded source.toList).toByteArray.size := by
      rwa [List.size_toByteArray]
    rw [getElem?_pos _ i h', getElem?_pos _ i h, List.getElem_toByteArray]
  · have h' : ¬ i < (encoded source.toList).toByteArray.size := by
      rwa [List.size_toByteArray]
    rw [getElem?_neg _ i h', getElem?_neg _ i h]

/-! ## The bytes of one character -/

def isContinuation (b : Char) : Bool := '\x80' ≤ b && b < '\xc0'

theorem utf8EncodeChar_low {c : Char} (h : c < '\x80') :
    (String.utf8EncodeChar c).map Char.ofUInt8 = [c] := by
  have hsmall : c.val.toNat ≤ 127 := Nat.le_of_lt_succ h
  have hbyte : (UInt8.ofNat c.val.toNat).toUInt32 = c.val := by
    apply UInt32.toNat_inj.1
    simp only [UInt8.toNat_toUInt32, UInt8.toNat_ofNat']
    omega
  rw [String.utf8EncodeChar]
  simp only [hsmall, if_true, List.map_cons, List.map_nil]
  exact congrArg (fun x => [x]) (Char.ext hbyte)

theorem isContinuation_ofNat (n : Nat) :
    isContinuation (Char.ofUInt8 (UInt8.ofNat (n % 64 + 128))) = true := by
  have hall : ∀ m < 64, isContinuation (Char.ofUInt8 (UInt8.ofNat (m + 128))) = true := by decide
  exact hall (n % 64) (Nat.mod_lt n (by decide))

/-- A first byte of two, three or four has room for the bits of `n` below `k`. -/
theorem le_ofNat_first {k offset : Nat} (n : Nat) (hk : 0 < k)
    (h : ∀ m < k, '\xc0' ≤ Char.ofUInt8 (UInt8.ofNat (m + offset))) :
    '\xc0' ≤ Char.ofUInt8 (UInt8.ofNat (n % k + offset)) :=
  h (n % k) (Nat.mod_lt n hk)

theorem utf8EncodeChar_high {c : Char} (h : ¬ c < '\x80') :
    ∃ first more, String.utf8EncodeChar c = first :: more ∧ '\xc0' ≤ Char.ofUInt8 first ∧
      ∀ b ∈ more, isContinuation (Char.ofUInt8 b) = true := by
  have hlarge : ¬ c.val.toNat ≤ 127 := fun hsmall => h (Nat.lt_succ_of_le hsmall)
  rw [String.utf8EncodeChar]
  simp only [hlarge, if_false]
  split
  · refine ⟨_, _, rfl, le_ofNat_first _ (by decide) (by decide), ?_⟩
    simp only [List.mem_cons, forall_eq_or_imp, isContinuation_ofNat, List.not_mem_nil,
      false_implies, implies_true, and_self]
  split
  · refine ⟨_, _, rfl, le_ofNat_first _ (by decide) (by decide), ?_⟩
    simp only [List.mem_cons, forall_eq_or_imp, isContinuation_ofNat, List.not_mem_nil,
      false_implies, implies_true, and_self]
  · refine ⟨_, _, rfl, le_ofNat_first _ (by decide) (by decide), ?_⟩
    simp only [List.mem_cons, forall_eq_or_imp, isContinuation_ofNat, List.not_mem_nil,
      false_implies, implies_true, and_self]

theorem isContinuation_of_lt {b : Char} (h : b < '\x80') : isContinuation b = false := by
  simp [isContinuation, Char.not_le.2 h]

theorem isContinuation_of_le {b : Char} (h : '\xc0' ≤ b) : isContinuation b = false := by
  simp [isContinuation, Char.not_lt.2 h]

theorem le_of_isContinuation {b : Char} (h : isContinuation b = true) : '\x80' ≤ b := by
  simp only [isContinuation, Bool.and_eq_true, decide_eq_true_eq] at h
  exact h.1

/-- The bytes of a character that is not written by one byte alone are all from 128 on. -/
theorem high_bytes {c : Char} (h : ¬ c < '\x80') {b : UInt8} (hb : b ∈ String.utf8EncodeChar c) :
    '\x80' ≤ Char.ofUInt8 b := by
  obtain ⟨first, more, hbytes, hfirst, hmore⟩ := utf8EncodeChar_high h
  rw [hbytes, List.mem_cons] at hb
  rcases hb with rfl | hb
  · exact Char.le_trans (by decide) hfirst
  · exact le_of_isContinuation (hmore b hb)

/-- The first byte of a character is no continuation. -/
theorem head_utf8EncodeChar (c : Char) :
    ∃ first more, String.utf8EncodeChar c = first :: more ∧
      isContinuation (Char.ofUInt8 first) = false ∧
      ∀ b ∈ more, isContinuation (Char.ofUInt8 b) = true := by
  by_cases h : c < '\x80'
  · have hlow := utf8EncodeChar_low h
    obtain ⟨first, more, hbytes, hfirst, hmore⟩ := List.map_eq_cons_iff.1 hlow
    obtain rfl := List.map_eq_nil_iff.1 hmore
    exact ⟨first, [], hbytes, hfirst ▸ isContinuation_of_lt h, by simp⟩
  · obtain ⟨first, more, hbytes, hfirst, hmore⟩ := utf8EncodeChar_high h
    exact ⟨first, more, hbytes, isContinuation_of_le hfirst, hmore⟩

/-! ## Slices -/

instance decidableIsValid (source : String) (i : Nat) :
    Decidable (String.Pos.Raw.IsValid source ⟨i⟩) :=
  decidable_of_iff _ String.Pos.Raw.isValid_eq_true_iff

/-- The text between two byte positions; none if one of them is not between two characters of the
source, or at its ends. -/
def slice? (source : String) (i j : Nat) : Option String :=
  if i ≤ j ∧ String.Pos.Raw.IsValid source ⟨i⟩ ∧ String.Pos.Raw.IsValid source ⟨j⟩ then
    String.fromUTF8? (source.toUTF8.extract i j)
  else none

theorem isValid_width {source : String} {before after : List Char}
    (h : source.toList = before ++ after) : String.Pos.Raw.IsValid source ⟨width before⟩ := by
  refine String.Pos.Raw.isValid_iff_exists_append.2
    ⟨String.ofList before, String.ofList after, ?_, ?_⟩
  · rw [← String.ofList_append, ← h, String.ofList_toList]
  · refine String.Pos.Raw.ext ?_
    have hsize := size_toUTF8 (String.ofList before)
    rw [String.toList_ofList] at hsize
    exact hsize.symm

/-- Between two characters a slice is the text there. -/
theorem slice?_eq {source : String} {before text after : List Char}
    (h : source.toList = before ++ (text ++ after)) :
    slice? source (width before) (width (before ++ text)) = some (String.ofList text) := by
  have hfrom := isValid_width h
  have hsplit : source.toList = before ++ text ++ after := by rw [h, List.append_assoc]
  have hto := isValid_width hsplit
  have hle : width before ≤ width (before ++ text) := by
    rw [width_append]
    exact Nat.le_add_right _ _
  have hbytes : source.toUTF8.extract (width before) (width (before ++ text)) =
      (String.ofList text).toUTF8 := by
    have hsize : ∀ cs : List Char, width cs = (encoded cs).toByteArray.size :=
      fun cs => List.size_toByteArray.symm
    rw [toUTF8_eq, toUTF8_ofList, h, encoded_append, encoded_append, width_append, hsize, hsize,
      List.toByteArray_append, List.toByteArray_append]
    have hskip := ByteArray.extract_append_size_add (a := (encoded before).toByteArray)
      (b := (encoded text).toByteArray ++ (encoded after).toByteArray) (i := 0)
      (j := (encoded text).toByteArray.size)
    rw [Nat.add_zero] at hskip
    rw [hskip, ByteArray.extract_append_size_left, ByteArray.extract_zero_size]
  rw [slice?, if_pos ⟨hle, hfrom, hto⟩, hbytes]
  exact dif_pos (String.ofList text).isValidUTF8

end TreeWalk.Scan

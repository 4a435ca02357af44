import TreeWalk.Proofs.Number.Encoding
import TreeWalk.Proofs.Session.SingleExpression
import TreeWalk.Proofs.Token.Numerals

/-!
Printed numbers read back. The text of a finite number is a source of one expression, a numeral or
the negation of one, and has the number as its value, bit for bit: also a zero keeps its sign.
-/

namespace TreeWalk

open Number Scan

/-- What the text of a finite number is read as: a negative one is the negation of its magnitude. -/
def spelled (x : Float) : Expr :=
  let magnitude := .literal (.number (ofCode false (code x)))
  if isNegative x then .unary ⟨.symbol .minus, "-", 1⟩ magnitude else magnitude

section

variable {x : Float} (hx : code x < infinityCode)
include hx

theorem reading_number : Reading.expression (Value.number x).text = ⟨some (spelled x), []⟩ := by
  have htext : (Value.number x).text.toList = Number.printed x := String.toList_ofList
  obtain ⟨lexeme, line, hlisted⟩ := listed_printed hx
  refine Session.ofSource_eq_iff.2 ⟨?_, ?_⟩
  · have hreports : (listed 1 (cuts (Value.number x).text.toList)).filterMap Item.report? = [] := by
      rw [htext, hlisted]
      cases isNegative x <;> rfl
    exact reports_listed.1 hreports
  · rw [tokens_eq, written, htext, hlisted, spelled]
    cases isNegative x <;> rfl

/-- The negation gives the sign back. -/
theorem alone_spelled : (spelled x).alone = .ok (.number x) := by
  have hmade := ofCode_code x
  unfold spelled
  cases hsign : isNegative x with
  | true =>
    rw [hsign] at hmade
    change Except.ok (Value.number (-ofCode false (code x))) = _
    rw [neg_ofCode false hx.le]
    exact congrArg (Except.ok ∘ Value.number) hmade
  | false =>
    rw [hsign] at hmade
    exact congrArg (Except.ok ∘ Value.number) hmade

end

/-- The text of a finite number is a source of one expression and has no fault. With fuel enough its
value is a number with the same bits, which has the same text. -/
theorem printed_number_read_back (x : Float) (hx : x.isFinite = true) :
    Reading.expression (Value.number x).text = ⟨some (spelled x), []⟩ ∧
    ∃ y : Float, y.toBits = x.toBits ∧ (Value.number y).text = (Value.number x).text ∧
      ∃ few, ∀ fuel, few ≤ fuel →
        Session.evaluate fuel (Value.number x).text = some (.ok (.number y)) := by
  have hcode := (isFinite_iff x).1 hx
  have hreading := reading_number hcode
  obtain ⟨few, hevaluated⟩ := (Run.growing_evaluate (spelled x)).ends_from
    (ends_alone (State.unbound_initial .unlimited) (spelled x))
  refine ⟨hreading, x, rfl, rfl, few, fun fuel hfuel => ?_⟩
  rw [Session.evaluate_accepted hreading (hevaluated fuel hfuel), alone_spelled hcode]
  rfl

theorem text_negativeZero : (Value.number (ofCode true 0)).text = "-0" := by
  have hcode : code (ofCode true 0) = 0 := code_ofCode true (Nat.zero_le _)
  have hunits : units 0 = 0 := units_small (by decide)
  have hwhole : isWhole (ofCode true 0) = true := by
    rw [isWhole, hcode, hunits, Nat.zero_mod]
    rfl
  have hzero : wholePart (ofCode true 0) = 0 := by rw [wholePart, hcode, hunits, Nat.zero_div]
  have hprinted : Number.printed (ofCode true 0) = ['-', '0'] := by
    rw [Number.printed, if_pos hwhole, hzero, sign, isNegative_ofCode true (Nat.zero_le _)]
    rfl
  exact congrArg String.ofList hprinted

/-- Negative zero is printed with its sign, and read back with it. -/
theorem negativeZero_read_back : ∃ y : Float, y.toBits = 0x8000000000000000 ∧
    ∃ few, ∀ fuel, few ≤ fuel → Session.evaluate fuel "-0" = some (.ok (.number y)) := by
  have hfinite : (ofCode true 0).isFinite = true := by
    rw [isFinite_iff, code_ofCode true (Nat.zero_le _)]
    decide
  obtain ⟨_, y, hbits, _, hends⟩ := printed_number_read_back (ofCode true 0) hfinite
  rw [text_negativeZero] at hends
  refine ⟨y, ?_, hends⟩
  rw [hbits, ← UInt64.toNat_inj, toNat_toBits_ofCode true (Nat.zero_le _)]
  rfl

end TreeWalk

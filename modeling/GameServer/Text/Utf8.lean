import GameServer.Lib.Utf

/-!
# The test for UTF-8

`IsTextUTF8` counts the bytes that a character still has to come with, and wants one byte that is not ASCII. What it makes of a
text is one lemma for a character and an induction over the text.
-/

namespace GameServer.Text

open GameServer.Lib

/-- The loop of `IsTextUTF8`, from `nBytes` and `bAllAscii` on, and the tests after it. -/
def textLoop : List UInt8 → (nBytes : Nat) → (bAllAscii : Bool) → Bool
  | [], nBytes, bAllAscii => if nBytes > 0 then false else !bAllAscii
  | chr :: str, nBytes, bAllAscii =>
    let bAllAscii := if chr &&& 0x80 ≠ 0 then false else bAllAscii
    if nBytes = 0 then
      if chr ≥ 0x80 then
        if chr ≥ 0xFC ∧ chr ≤ 0xFD then textLoop str 5 bAllAscii
        else if chr ≥ 0xF8 then textLoop str 4 bAllAscii
        else if chr ≥ 0xF0 then textLoop str 3 bAllAscii
        else if chr ≥ 0xE0 then textLoop str 2 bAllAscii
        else if chr ≥ 0xC0 then textLoop str 1 bAllAscii
        else false
      else textLoop str 0 bAllAscii
    else if chr &&& 0xC0 ≠ 0x80 then false
    else textLoop str (nBytes - 1) bAllAscii

/-- `IsTextUTF8` of a whole string. -/
def IsTextUTF8 (str : List UInt8) : Bool := textLoop str 0 true

section Loop

variable {chr : UInt8} {str tail : List UInt8} {n : Nat} {b : Bool} {c : Char} {cs : List Char}

theorem high_bit (chr : UInt8) : chr &&& 0x80 ≠ 0 ↔ 0x80 ≤ chr.toNat := by
  obtain ⟨⟨chr⟩⟩ := chr
  revert chr
  decide +kernel

theorem high_bits (chr : UInt8) : chr &&& 0xC0 ≠ 0x80 ↔ ¬ (0x80 ≤ chr.toNat ∧ chr.toNat < 0xC0) := by
  obtain ⟨⟨chr⟩⟩ := chr
  revert chr
  decide +kernel

/-- The bytes that follow the first one. -/
theorem textLoop_tail {s : List UInt8} (more : ∀ b ∈ tail, 0x80 ≤ b.toNat ∧ b.toNat < 0xC0) :
    textLoop (tail ++ s) tail.length false = textLoop s 0 false := by
  induction tail with
  | nil => rfl
  | cons chr tail ih =>
    have here := more chr List.mem_cons_self
    have bits : ¬ (chr &&& 0xC0 ≠ 0x80) := fun bits => (high_bits chr).1 bits here
    rw [List.cons_append, List.length_cons, textLoop, if_pos ((high_bit chr).2 here.1), if_neg (Nat.succ_ne_zero _), if_neg bits]
    exact ih fun b mem => more b (List.mem_cons_of_mem chr mem)

/-- One character. -/
theorem textLoop_char : textLoop (String.utf8EncodeChar c ++ str) 0 b = textLoop str 0 (b && c.toNat < 0x80) := by
  obtain ⟨lead, tail, is, lead', more⟩ := utf8EncodeChar_eq c
  rw [is, List.cons_append, textLoop, if_pos rfl]
  simp only [ge_iff_le, UInt8.le_iff_toNat_le, high_bit, UInt8.reduceToNat]
  have next := textLoop_tail (s := str) more
  have notAscii : 0x80 ≤ c.toNat → (b && decide (c.toNat < 0x80)) = false := by
    intro high
    rw [decide_eq_false (by omega), Bool.and_false]
  generalize length : tail.length = n at lead' next
  cases lead' with
  | one ascii most =>
    obtain rfl := List.length_eq_zero_iff.1 length
    rw [decide_eq_true ascii, Bool.and_true]
    split_ifs <;> first | omega | rfl
  | two ascii _ least most =>
    rw [notAscii ascii, ← next]
    split_ifs <;> first | omega | rfl
  | three ascii _ least most =>
    rw [notAscii ascii, ← next]
    split_ifs <;> first | omega | rfl
  | four ascii _ least most =>
    rw [notAscii ascii, ← next]
    split_ifs <;> first | omega | rfl

theorem textLoop_utf8 : textLoop (utf8 cs) 0 b = !(b && cs.all fun c => c.toNat < 0x80) := by
  induction cs generalizing b with
  | nil => simp [textLoop]
  | cons c cs ih => rw [utf8_cons, textLoop_char, ih, List.all_cons, Bool.and_assoc]

/-- A text is recognized when it is not all ASCII. -/
theorem isTextUTF8_utf8 : IsTextUTF8 (utf8 cs) = true ↔ ∃ c ∈ cs, 0x80 ≤ c.toNat := by
  rw [IsTextUTF8, textLoop_utf8, Bool.true_and, Bool.not_eq_true', List.all_eq_false]
  simp

end Loop

end GameServer.Text

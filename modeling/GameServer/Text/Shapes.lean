import GameServer.Lib.Sequences
import GameServer.Text.Utf8

/-!
# What is taken for UTF-8

`IsTextUTF8` compares the leads from above, and `chr >= 0xF8` lets `0xFE` and `0xFF` through with the leads of five bytes. Of any
string it says whether it is a concatenation of sequences with these leads that is not all ASCII; that is the shape of RFC 2279
unless one of the two bytes leads a sequence (`isTextUTF8_iff`).
-/

namespace GameServer.Text

open GameServer.Lib

/-- A byte `10xxxxxx`. -/
def inner (b : UInt8) : Bool := 0x80 ≤ b && b < 0xC0

/-- The sequences of RFC 2279. -/
def rfc2279 : Leads UInt8 where
  more b :=
    if b < 0x80 then some 0 else if b < 0xC0 then none else if b < 0xE0 then some 1 else if b < 0xF0 then some 2
    else if b < 0xF8 then some 3 else if b < 0xFC then some 4 else if b < 0xFE then some 5 else none
  inner := inner

/-- The sequences that the code takes for such. -/
def taken : Leads UInt8 where
  more b := if b < 0xFE then rfc2279.more b else some 4
  inner := inner

/-- The leads as the code compares them. -/
theorem taken_more (chr : UInt8) : taken.more chr =
    if chr ≥ 0x80 then
      if chr ≥ 0xFC ∧ chr ≤ 0xFD then some 5
      else if chr ≥ 0xF8 then some 4
      else if chr ≥ 0xF0 then some 3
      else if chr ≥ 0xE0 then some 2
      else if chr ≥ 0xC0 then some 1
      else none
    else some 0 := by
  obtain ⟨⟨chr⟩⟩ := chr
  revert chr
  decide +kernel

theorem inner_iff (b : UInt8) : ¬ b &&& 0xC0 ≠ 0x80 ↔ inner b = true := by
  rw [high_bits]
  simp only [inner, Bool.and_eq_true, decide_eq_true_eq, UInt8.le_iff_toNat_le, UInt8.lt_iff_toNat_lt, UInt8.reduceToNat, not_not]

section Shapes

variable {x str : List UInt8} {n : Nat} {b : Bool}

/-- The two differ in two leads, and these stand in no sequence of the RFC. -/
theorem rfc2279_more (b : UInt8) (n : Nat) : rfc2279.more b = some n ↔ taken.more b = some n ∧ b < 0xFE := by
  have none' : ∀ b : UInt8, ¬ b < 0xFE → rfc2279.more b = none := by
    rintro ⟨⟨b⟩⟩
    revert b
    decide +kernel
  by_cases low : b < 0xFE
  · simp [taken, low]
  · simp [none' b low, low]

theorem inner_high (b : UInt8) (follows : inner b = true) : 0x80 ≤ b := by
  simp only [inner, Bool.and_eq_true, decide_eq_true_eq] at follows
  exact follows.1

theorem inner_lt (b : UInt8) (follows : inner b = true) : b < 0xFE := by
  simp only [inner, Bool.and_eq_true, decide_eq_true_eq] at follows
  exact UInt8.lt_trans follows.2 (by decide)

theorem rfc2279_shaped : rfc2279.Shaped x ↔ taken.Shaped x ∧ ∀ b ∈ x, b < 0xFE := by
  constructor
  · rintro ⟨more, inner⟩
    obtain ⟨more', low⟩ := (rfc2279_more _ _).1 more
    exact ⟨.mk more' inner, List.forall_mem_cons.2 ⟨low, fun b mem => inner_lt b (inner b mem)⟩⟩
  · rintro ⟨⟨more, inner⟩, low⟩
    exact .mk ((rfc2279_more _ _).2 ⟨more, (List.forall_mem_cons.1 low).1⟩) inner

theorem rfc2279_concatenation : rfc2279.Concatenation str ↔ taken.Concatenation str ∧ ∀ b ∈ str, b < 0xFE := by
  constructor
  · rintro ⟨xs, shaped, rfl⟩
    refine ⟨⟨xs, fun x mem => (rfc2279_shaped.1 (shaped x mem)).1, rfl⟩, fun b mem => ?_⟩
    obtain ⟨x, here, mem⟩ := List.mem_flatten.1 mem
    exact (rfc2279_shaped.1 (shaped x here)).2 b mem
  · rintro ⟨⟨xs, shaped, rfl⟩, low⟩
    refine ⟨xs, fun x mem => rfc2279_shaped.2 ⟨shaped x mem, fun b here => ?_⟩, rfl⟩
    exact low b (List.mem_flatten.2 ⟨x, mem, here⟩)

end Shapes

section Loop

variable {chr : UInt8} {str : List UInt8} {n : Nat} {b : Bool}

/-- A byte where no other is expected. -/
theorem textLoop_lead (chr : UInt8) (str : List UInt8) (b : Bool) :
    textLoop (chr :: str) 0 b = ((taken.more chr).map fun n => textLoop str n (b && chr < 0x80)).getD false := by
  have state : (if chr &&& 0x80 ≠ 0 then false else b) = (b && decide (chr < 0x80)) := by
    simp only [high_bit, UInt8.lt_iff_toNat_lt, UInt8.reduceToNat]
    by_cases high : 0x80 ≤ chr.toNat
    · rw [if_pos high, decide_eq_false (not_lt.2 high), Bool.and_false]
    · rw [if_neg high, decide_eq_true (not_le.1 high), Bool.and_true]
  rw [textLoop, if_pos rfl, state]
  generalize (b && decide (chr < 0x80)) = b'
  rw [taken_more]
  split_ifs <;> rfl

/-- A byte that has to follow. -/
theorem textLoop_inner (chr : UInt8) (str : List UInt8) (n : Nat) (b : Bool) :
    textLoop (chr :: str) (n + 1) b = (inner chr && textLoop str n false) := by
  rw [textLoop, if_neg (Nat.succ_ne_zero n), Nat.add_sub_cancel]
  by_cases follows : inner chr = true
  · have bits := (inner_iff chr).2 follows
    have high : chr &&& 0x80 ≠ 0 := (high_bit chr).2 (not_not.1 (mt (high_bits chr).2 bits)).1
    rw [if_neg bits, if_pos high, follows, Bool.true_and]
  · rw [if_pos (not_not.1 (mt (inner_iff chr).1 follows)), Bool.eq_false_iff.2 follows, Bool.false_and]

/-- **The loop**, from any state on: so many bytes that follow, then sequences, and some byte that is not ASCII. By induction on the
string, one byte at a time. -/
theorem textLoop_iff : textLoop str n b = true ↔ taken.After n str ∧ (b = false ∨ ∃ c ∈ str, 0x80 ≤ c) := by
  induction str generalizing n b with
  | nil =>
    rw [Leads.after_nil, textLoop]
    cases n <;> cases b <;> simp
  | cons chr str ih =>
    cases n with
    | zero =>
      rw [textLoop_lead, Leads.after_zero, Leads.concatenation_cons]
      cases more : taken.more chr with
      | none => simp
      | some n =>
        simp only [Option.map_some, Option.getD_some, ih, Option.some.injEq, exists_eq_left', List.exists_mem_cons_iff,
          Bool.and_eq_false_iff, decide_eq_false_iff_not, UInt8.not_lt, or_assoc]
    | succ n =>
      rw [textLoop_inner, Leads.after_succ_cons, Bool.and_eq_true, ih]
      constructor
      · rintro ⟨follows, after, -⟩
        exact ⟨⟨follows, after⟩, .inr ⟨chr, List.mem_cons_self, inner_high chr follows⟩⟩
      · rintro ⟨⟨follows, after⟩, -⟩
        exact ⟨follows, after, .inl rfl⟩

/-- What `IsTextUTF8` recognizes. -/
theorem isTextUTF8_taken : IsTextUTF8 str = true ↔ taken.Concatenation str ∧ ∃ c ∈ str, 0x80 ≤ c := by
  rw [IsTextUTF8, textLoop_iff, Leads.after_zero]
  simp

end Loop

/-- **It recognizes UTF-8** if and only if the string has no byte `0xFE` or `0xFF`, or is none of the concatenations in which such
bytes lead sequences of five bytes. -/
theorem isTextUTF8_iff (str : List UInt8) :
    (IsTextUTF8 str = true ↔ (∃ c ∈ str, 0x80 ≤ c) ∧ rfc2279.Concatenation str) ↔
      (∀ c ∈ str, c < 0xFE) ∨ ¬ taken.Concatenation str := by
  rw [isTextUTF8_taken, rfc2279_concatenation]
  constructor
  · intro same
    by_contra fails
    obtain ⟨leads, cut⟩ := not_or.1 fails
    obtain ⟨c, mem, high⟩ : ∃ c ∈ str, ¬ c < 0xFE := by simpa using leads
    have here : ∃ c ∈ str, 0x80 ≤ c := ⟨c, mem, UInt8.le_trans (by decide) (UInt8.not_lt.1 high)⟩
    exact high ((same.1 ⟨not_not.1 cut, here⟩).2.2 c mem)
  · rintro (low | none')
    · exact ⟨fun both => ⟨both.2, both.1, low⟩, fun both => ⟨both.2.1, both.1⟩⟩
    · exact iff_of_false (fun both => none' both.1) fun both => none' both.2.1

/-- A byte that leads no sequence of the RFC is taken for the lead of five bytes. -/
theorem isTextUTF8_FE : IsTextUTF8 [0xFE, 0x80, 0x80, 0x80, 0x80] = true ∧ ¬ rfc2279.Concatenation [0xFE, 0x80, 0x80, 0x80, 0x80] := by
  refine ⟨by decide, fun cut => ?_⟩
  have low := (rfc2279_concatenation.1 cut).2 0xFE List.mem_cons_self
  exact absurd low (by decide)

end GameServer.Text

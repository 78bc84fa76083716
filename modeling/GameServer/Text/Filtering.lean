import GameServer.Text.Shapes

/-!
# Filtering UTF-8

`FilterUTF8` copies a character of two or three bytes as soon as it sees the lead, whether or not the other bytes are there, and
then counts them. A byte that cannot follow makes it return `false`, which is no string but a null pointer to build one from. It
gives what it should if and only if the string is cut short in a way that it gets over, and `0xFE` and `0xFF`, which it takes for
leads of five bytes, are followed by long sequences only (`FilterUTF8_iff`).
-/

namespace GameServer.Text

open GameServer.Lib

/-- What `FilterUTF8` can fail with: it reads a byte outside of its string, or returns `false`. -/
inductive Fault where
  | outside
  | nullString
  deriving DecidableEq, Repr

/-- The loop of `FilterUTF8`, from `nBytes` and `ret` on. `bAllAscii` makes no difference to what it returns. -/
def filterLoop : List UInt8 → (nBytes : Nat) → (ret : List UInt8) → Except Fault (List UInt8)
  | [], _, ret => .ok ret
  | chr :: str, nBytes, ret =>
    if nBytes = 0 then
      if chr ≥ 0x80 then
        if chr ≥ 0xFC ∧ chr ≤ 0xFD then filterLoop str 5 ret
        else if chr ≥ 0xF8 then filterLoop str 4 ret
        else if chr ≥ 0xF0 then filterLoop str 3 ret
        else if chr ≥ 0xE0 then
          if 3 ≤ (chr :: str).length then filterLoop str 2 (ret ++ (chr :: str).take 3) else .error .outside
        else if chr ≥ 0xC0 then
          if 2 ≤ (chr :: str).length then filterLoop str 1 (ret ++ (chr :: str).take 2) else .error .outside
        else .ok ret
      else filterLoop str 0 (ret ++ [chr])
    else if chr &&& 0xC0 ≠ 0x80 then .error .nullString
    else filterLoop str (nBytes - 1) ret

def FilterUTF8 (str : List UInt8) : Except Fault (List UInt8) := filterLoop str 0 []

/-- The sequences of one to three bytes. -/
def short (xs : List (List UInt8)) : List UInt8 := (xs.filter (·.length ≤ 3)).flatten

/-- **What filtering means**: the short ones of the sequences that make up the longest well-formed prefix. -/
def Filtered (str result : List UInt8) : Prop :=
  ∃ xs : List (List UInt8), (∀ x ∈ xs, rfc2279.Shaped x) ∧ xs.flatten <+: str ∧
    (∀ ys : List (List UInt8), (∀ y ∈ ys, rfc2279.Shaped y) → ys.flatten <+: str → ys.flatten.length ≤ xs.flatten.length) ∧
    result = short xs

/-- What is left of a string that the loop gets over: nothing, a byte that leads nothing, or the beginning of a sequence of four bytes
and more at the end. -/
inductive Remainder : List UInt8 → Prop where
  | nil : Remainder []
  | stray {b : UInt8} {rest : List UInt8} (none' : taken.more b = none) : Remainder (b :: rest)
  | cut {lead : UInt8} {tail : List UInt8} {n : Nat} (more : taken.more lead = some n) (long : 3 ≤ n) (less : tail.length < n)
      (follows : ∀ b ∈ tail, inner b) : Remainder (lead :: tail)

/-- Well-formed sequences, long ones among which the two bytes may lead some, and such a rest. -/
def Filterable (str : List UInt8) : Prop :=
  ∃ (xs ys : List (List UInt8)) (rest : List UInt8), str = xs.flatten ++ (ys.flatten ++ rest) ∧ (∀ x ∈ xs, rfc2279.Shaped x) ∧
    (∀ y ∈ ys, taken.Shaped y ∧ 3 < y.length) ∧ Remainder rest

section Loop

variable {chr b : UInt8} {str tail rest ret result x : List UInt8} {xs ys zs : List (List UInt8)} {n : Nat}

/-- A byte where no other is expected. -/
theorem filterLoop_lead (chr : UInt8) (str ret : List UInt8) : filterLoop (chr :: str) 0 ret =
    match taken.more chr with
    | none => .ok ret
    | some n =>
      if n < 3 then if n ≤ str.length then filterLoop str n (ret ++ chr :: str.take n) else .error .outside
      else filterLoop str n ret := by
  have three : 3 ≤ (chr :: str).length ↔ 2 ≤ str.length := Nat.succ_le_succ_iff
  have two : 2 ≤ (chr :: str).length ↔ 1 ≤ str.length := Nat.succ_le_succ_iff
  rw [filterLoop, if_pos rfl, taken_more]
  simp only [three, two]
  split_ifs <;> simp [*]

theorem filterLoop_inner (chr : UInt8) (str ret : List UInt8) (n : Nat) :
    filterLoop (chr :: str) (n + 1) ret = if inner chr then filterLoop str n ret else .error .nullString := by
  rw [filterLoop, if_neg (Nat.succ_ne_zero n), Nat.add_sub_cancel]
  by_cases follows : inner chr = true
  · rw [if_neg ((inner_iff chr).2 follows), if_pos follows]
  · rw [if_pos (not_not.1 (mt (inner_iff chr).1 follows)), if_neg follows]

/-- The bytes that follow are counted. -/
theorem filterLoop_tail (follows : ∀ b ∈ tail, inner b) (within : tail.length ≤ n) (rest ret : List UInt8) :
    filterLoop (tail ++ rest) n ret = filterLoop rest (n - tail.length) ret := by
  induction tail generalizing n with
  | nil => rfl
  | cons b tail ih =>
    obtain ⟨here, others⟩ := List.forall_mem_cons.1 follows
    obtain ⟨n, rfl⟩ : ∃ k, n = k + 1 := Nat.exists_eq_add_of_le' (Nat.le_of_add_left_le within)
    rw [List.cons_append, filterLoop_inner, if_pos here, ih others (Nat.le_of_succ_le_succ within), List.length_cons,
      Nat.add_sub_add_right]

theorem short_append (xs ys : List (List UInt8)) : short (xs ++ ys) = short xs ++ short ys := by
  rw [short, List.filter_append, List.flatten_append]
  rfl

theorem short_of_long (long : ∀ y ∈ ys, 3 < y.length) : short ys = [] := by
  have none' : ys.filter (·.length ≤ 3) = [] := List.filter_eq_nil_iff.2 fun y mem => by simpa using long y mem
  rw [short, none', List.flatten_nil]

theorem short_of_few (few : x.length ≤ 3) : short [x] = x := by
  have kept : [x].filter (·.length ≤ 3) = [x] :=
    List.filter_eq_self.2 fun y mem => decide_eq_true (List.mem_singleton.1 mem ▸ few)
  rw [short, kept, List.flatten_singleton]

theorem long_of_short (shaped : ∀ y ∈ ys, taken.Shaped y) (none' : short ys = []) : ∀ y ∈ ys, 3 < y.length := by
  intro y mem
  by_contra few
  have here : y ∈ ys.filter (·.length ≤ 3) := List.mem_filter.2 ⟨mem, by simpa using few⟩
  exact (shaped y mem).ne_nil (List.flatten_eq_nil_iff.1 none' y here)

/-- A sequence is copied if it is short. -/
theorem filterLoop_shaped (shaped : taken.Shaped x) (rest ret : List UInt8) :
    filterLoop (x ++ rest) 0 ret = filterLoop rest 0 (ret ++ short [x]) := by
  cases shaped with
  | @mk lead tail more follows =>
    rw [List.cons_append, filterLoop_lead, more]
    by_cases few : tail.length < 3
    · have within : tail.length ≤ (tail ++ rest).length := by simp
      have copied : short [lead :: tail] = lead :: tail := short_of_few few
      simp only [if_pos few, if_pos within, List.take_left, filterLoop_tail follows le_rfl, Nat.sub_self, copied]
    · have dropped : short [lead :: tail] = [] := short_of_long (by simpa using Nat.lt_succ_of_le (not_lt.1 few))
      simp only [if_neg few, filterLoop_tail follows le_rfl, Nat.sub_self, dropped, List.append_nil]

theorem filterLoop_flatten (shaped : ∀ x ∈ xs, taken.Shaped x) (rest ret : List UInt8) :
    filterLoop (xs.flatten ++ rest) 0 ret = filterLoop rest 0 (ret ++ short xs) := by
  induction xs generalizing ret with
  | nil => rw [short, List.filter_nil, List.flatten_nil, List.nil_append, List.append_nil]
  | cons x xs ih =>
    obtain ⟨here, others⟩ := List.forall_mem_cons.1 shaped
    rw [List.flatten_cons, List.append_assoc, filterLoop_shaped here, ih others, List.append_assoc, ← short_append,
      List.singleton_append]

/-- The loop gets over a rest that it can get over. -/
theorem filterLoop_remainder (remainder : Remainder rest) (ret : List UInt8) : filterLoop rest 0 ret = .ok ret := by
  cases remainder with
  | nil => rfl
  | stray none' => rw [filterLoop_lead, none']
  | @cut lead tail n more long less follows =>
    have counted : filterLoop tail n ret = .ok ret := by
      rw [← List.append_nil tail, filterLoop_tail follows less.le]
      rfl
    rw [filterLoop_lead, more]
    simp only [if_neg (not_lt.2 long), counted]

/-- It gets over no other. -/
theorem remainder_of_stuck (stuck : taken.Stuck rest) (result' : filterLoop rest 0 ret = .ok result) : Remainder rest := by
  cases stuck with
  | nil => exact .nil
  | stray none' => exact .stray none'
  | @short lead tail n more less follows =>
    rw [filterLoop_lead, more] at result'
    simp only [if_neg (not_le.2 less)] at result'
    split at result'
    · cases result'
    · next long => exact .cut more (not_lt.1 long) less follows
  | @broken lead b tail rest n more less follows other =>
    -- the byte that cannot follow is reached
    obtain ⟨k, left⟩ : ∃ k, n - tail.length = k + 1 := ⟨n - tail.length - 1, by omega⟩
    have refused : ∀ ret, filterLoop (tail ++ b :: rest) n ret = .error .nullString := by
      intro ret
      rw [filterLoop_tail follows less.le, left, filterLoop_inner, if_neg (by simpa [taken] using other)]
    rw [filterLoop_lead, more] at result'
    simp only [refused] at result'
    split_ifs at result'

theorem Remainder.stuck (remainder : Remainder rest) : taken.Stuck rest := by
  cases remainder with
  | nil => exact .nil
  | stray none' => exact .stray none'
  | cut more long less follows => exact .short more less follows

end Loop

section Filters

variable {str rest result : List UInt8} {zs : List (List UInt8)}

theorem shaped_takeWhile : ∀ z ∈ zs.takeWhile (rfc2279.Shaped ·), rfc2279.Shaped z := by
  intro z mem
  have here := List.mem_takeWhile_imp mem
  exact of_decide_eq_true here

/-- The longest well-formed prefix has the sequences up to the first one that only the code takes for such. -/
theorem filtered_iff (shaped : ∀ z ∈ zs, taken.Shaped z) (stuck : taken.Stuck rest) :
    Filtered (zs.flatten ++ rest) result ↔ result = short (zs.takeWhile (rfc2279.Shaped ·)) := by
  have fewer : ∀ x, rfc2279.Shaped x → taken.Shaped x := fun x shaped => (rfc2279_shaped.1 shaped).1
  have well : ∀ z ∈ zs.takeWhile (rfc2279.Shaped ·), rfc2279.Shaped z := shaped_takeWhile
  have front : (zs.takeWhile (rfc2279.Shaped ·)).flatten <+: zs.flatten ++ rest :=
    (List.takeWhile_prefix _).flatten.trans (List.prefix_append _ _)
  constructor
  · rintro ⟨xs, wellFormed, start, longest, rfl⟩
    obtain ⟨others, same⟩ := Leads.prefix_takeWhile fewer wellFormed shaped stuck start
    -- a longer prefix would have more sequences, and none of them is empty
    have length := longest _ well front
    rw [← same, List.flatten_append, List.length_append] at length
    have empty : others.flatten = [] := List.length_eq_zero_iff.1 (by omega)
    have none' : others = [] := by
      rw [List.eq_nil_iff_forall_not_mem]
      intro x mem
      have here : x ∈ zs.takeWhile (rfc2279.Shaped ·) := by
        rw [← same]
        exact List.mem_append_right _ mem
      exact (well x here).ne_nil (List.flatten_eq_nil_iff.1 empty x mem)
    rw [← same, none', List.append_nil]
  · rintro rfl
    refine ⟨_, well, front, fun ys wellFormed start => ?_, rfl⟩
    exact (Leads.prefix_takeWhile fewer wellFormed shaped stuck start).flatten.length_le

/-- **Filtering** reads only the string, returns, and gives what it should if and only if the string is filterable. -/
theorem FilterUTF8_iff (str : List UInt8) : (∃ result, FilterUTF8 str = .ok result ∧ Filtered str result) ↔ Filterable str := by
  constructor
  · rintro ⟨result, filtered, meets⟩
    obtain ⟨zs, rest, shaped, stuck, rfl⟩ := Leads.exists_cut taken str
    rw [FilterUTF8, filterLoop_flatten shaped] at filtered
    have remainder := remainder_of_stuck stuck filtered
    rw [filterLoop_remainder remainder, List.nil_append, Except.ok.injEq] at filtered
    rw [filtered_iff shaped stuck, ← filtered] at meets
    refine ⟨zs.takeWhile (rfc2279.Shaped ·), zs.dropWhile (rfc2279.Shaped ·), rest, ?_, ?_, ?_, remainder⟩
    · rw [← List.append_assoc, ← List.flatten_append, List.takeWhile_append_dropWhile]
    · exact shaped_takeWhile
    · have others : ∀ z ∈ zs.dropWhile (rfc2279.Shaped ·), taken.Shaped z := fun z mem =>
        shaped z ((List.dropWhile_sublist _).subset mem)
      have parts : short zs = short (zs.takeWhile (rfc2279.Shaped ·)) ++ short (zs.dropWhile (rfc2279.Shaped ·)) := by
        rw [← short_append, List.takeWhile_append_dropWhile]
      rw [parts] at meets
      exact fun z mem => ⟨others z mem, long_of_short others (List.append_right_eq_self.1 meets) z mem⟩
  · rintro ⟨xs, ys, rest, rfl, wellFormed, long, remainder⟩
    have shaped : ∀ z ∈ xs ++ ys, taken.Shaped z := by
      intro z mem
      rcases List.mem_append.1 mem with mem | mem
      · exact (rfc2279_shaped.1 (wellFormed z mem)).1
      · exact (long z mem).1
    have parts : xs.flatten ++ (ys.flatten ++ rest) = (xs ++ ys).flatten ++ rest := by
      rw [List.flatten_append, List.append_assoc]
    have copied : short (xs ++ ys) = short xs := by
      rw [short_append, short_of_long fun y mem => (long y mem).2, List.append_nil]
    rw [parts]
    refine ⟨short xs, ?_, ?_⟩
    · rw [FilterUTF8, filterLoop_flatten shaped, filterLoop_remainder remainder, List.nil_append, copied]
    · rw [filtered_iff shaped remainder.stuck, List.takeWhile_append_of_pos fun x mem => decide_eq_true (wellFormed x mem),
        short_append, short_of_long fun y mem => (long y ((List.takeWhile_prefix _).subset mem)).2, List.append_nil]

/-- The lead of a character whose bytes are missing is read with what lies behind the string, and one with another byte behind it
ends in a null pointer. -/
theorem FilterUTF8_fails : FilterUTF8 [0xE4, 0xB8] = .error .outside ∧ FilterUTF8 [0xC3, 0x41] = .error .nullString := by
  decide

end Filters

end GameServer.Text

import GameServer.Lib.Search

/-!
# Cutting a list from left to right

A matcher says of every place of a list whether something matches there, and how many elements it takes. `cut` goes through the
list once: where something matches a part ends, and what matched belongs to no part. Of several patterns the first one that matches
counts (`anyOf`), and cutting at one pattern gives the `pieces` between its matches (`pieces_eq_cut`).
-/

namespace GameServer.Lib

/-- How many elements match at the beginning of a list: at least one, and no more than there are. -/
structure Matcher (α : Type) where
  size : List α → Option Nat
  inside : ∀ {s n}, size s = some n → 0 < n ∧ n ≤ s.length

namespace Matcher

section Cuts

variable {α : Type} {m : Matcher α} {s : List α} {i n : Nat}

/-- The first `skip` elements belong to the last match. -/
def cutFrom (m : Matcher α) : Nat → List α → List (List α)
  | _, [] => [[]]
  | skip + 1, _ :: s => m.cutFrom skip s
  | 0, c :: s =>
    match m.size (c :: s) with
    | some n => [] :: m.cutFrom (n - 1) s
    | none => (m.cutFrom 0 s).modifyHead (c :: ·)

/-- What is left of a list without the matches from the left. -/
def cut (m : Matcher α) (s : List α) : List (List α) := m.cutFrom 0 s

/-- The first place where something matches, and how many elements. -/
def first (m : Matcher α) : List α → Option (Nat × Nat)
  | [] => none
  | c :: s =>
    match m.size (c :: s) with
    | some n => some (0, n)
    | none => (m.first s).map fun found => (found.1 + 1, found.2)

theorem size_nil : m.size [] = none := by
  cases found : m.size [] with
  | none => rfl
  | some n =>
    obtain ⟨pos, le⟩ := m.inside found
    exact absurd le (Nat.not_le_of_lt pos)

theorem cutFrom_eq (skip : Nat) (s : List α) : m.cutFrom skip s = m.cut (s.drop skip) := by
  induction skip generalizing s with
  | zero => rfl
  | succ skip ih =>
    cases s with
    | nil => rfl
    | cons c s => rw [cutFrom, ih, List.drop_succ_cons]

theorem first_eq_some_iff : m.first s = some (i, n) ↔ m.size (s.drop i) = some n ∧ ∀ j, j < i → m.size (s.drop j) = none := by
  induction s generalizing i with
  | nil => simp [first, size_nil]
  | cons c s ih =>
    cases here : m.size (c :: s) with
    | some k =>
      rw [first, here]
      constructor
      · intro same
        obtain ⟨rfl, rfl⟩ := Prod.mk.inj (Option.some.inj same)
        exact ⟨here, fun j less => absurd less (Nat.not_lt_zero j)⟩
      · rintro ⟨there, before⟩
        rcases Nat.eq_zero_or_pos i with rfl | pos
        · rw [List.drop_zero, here] at there
          obtain rfl := Option.some.inj there
          rfl
        · have none' := before 0 pos
          rw [List.drop_zero, here] at none'
          cases none'
    | none =>
      rw [first, here]
      constructor
      · intro same
        obtain ⟨⟨j, k⟩, found, pair⟩ := Option.map_eq_some_iff.1 same
        obtain ⟨rfl, rfl⟩ := Prod.mk.inj pair
        obtain ⟨there, before⟩ := ih.1 found
        refine ⟨there, fun l less => ?_⟩
        cases l with
        | zero => exact here
        | succ l => exact before l (Nat.lt_of_succ_lt_succ less)
      · rintro ⟨there, before⟩
        cases i with
        | zero =>
          rw [List.drop_zero, here] at there
          cases there
        | succ i =>
          have found : m.first s = some (i, n) := ih.2 ⟨there, fun j less => before (j + 1) (Nat.succ_lt_succ less)⟩
          simp only [found, Option.map_some]

theorem first_eq_none_iff : m.first s = none ↔ ∀ j, m.size (s.drop j) = none := by
  induction s with
  | nil => simp [first, size_nil]
  | cons c s ih =>
    cases here : m.size (c :: s) with
    | some k =>
      rw [first, here]
      refine iff_of_false (Option.some_ne_none _) fun all => ?_
      have none' := all 0
      rw [List.drop_zero, here] at none'
      cases none'
    | none =>
      rw [first, here]
      simp only [Option.map_eq_none_iff, ih]
      constructor
      · intro all j
        cases j with
        | zero => exact here
        | succ j => exact all j
      · intro all j
        exact all (j + 1)

/-- The match is inside the list. -/
theorem first_inside (found : m.first s = some (i, n)) : 0 < n ∧ i + n ≤ s.length := by
  obtain ⟨pos, le⟩ := m.inside (first_eq_some_iff.1 found).1
  rw [List.length_drop] at le
  exact ⟨pos, by omega⟩

theorem cut_of_none (none' : m.first s = none) : m.cut s = [s] := by
  induction s with
  | nil => rfl
  | cons c s ih =>
    have here := first_eq_none_iff.1 none' 0
    rw [List.drop_zero] at here
    rw [first, here] at none'
    have rest := ih (Option.map_eq_none_iff.1 none')
    rw [cut] at rest
    rw [cut, cutFrom, here]
    simp only [rest, List.modifyHead_cons]

/-- The part before the first match, and the cut of what is behind it. -/
theorem cut_of_first (found : m.first s = some (i, n)) : m.cut s = s.take i :: m.cut (s.drop (i + n)) := by
  induction s generalizing i with
  | nil => cases found
  | cons c s ih =>
    cases here : m.size (c :: s) with
    | some k =>
      rw [first, here] at found
      obtain ⟨rfl, rfl⟩ := Prod.mk.inj (Option.some.inj found)
      obtain ⟨k, rfl⟩ := Nat.exists_eq_succ_of_ne_zero (Nat.ne_of_gt (m.inside here).1)
      rw [cut, cutFrom, here]
      simp only [Nat.succ_sub_one, cutFrom_eq, Nat.zero_add, List.drop_succ_cons, List.take_zero]
    | none =>
      rw [first, here] at found
      obtain ⟨⟨j, k⟩, later, pair⟩ := Option.map_eq_some_iff.1 found
      obtain ⟨rfl, rfl⟩ := Prod.mk.inj pair
      have rest := ih later
      rw [cut] at rest
      rw [cut, cutFrom, here, Nat.add_right_comm]
      simp only [rest, List.modifyHead_cons, List.take_succ_cons, List.drop_succ_cons]

/-- **Induction over the parts of a list.** -/
theorem cut_induction {P : List α → Prop} (last : ∀ s, m.first s = none → P s)
    (more : ∀ s i n, m.first s = some (i, n) → P (s.drop (i + n)) → P s) (s : List α) : P s := by
  induction size : s.length using Nat.strongRecOn generalizing s with
  | _ k ih =>
    cases found : m.first s with
    | none => exact last s found
    | some place =>
      obtain ⟨i, n⟩ := place
      obtain ⟨pos, le⟩ := first_inside found
      have less : (s.drop (i + n)).length < k := by
        rw [List.length_drop]
        omega
      exact more s i n found (ih _ less _ rfl)

end Cuts

section Patterns

variable {α : Type} [DecidableEq α] {pat s : List α} {pats : List (List α)}

/-- The first of the patterns that stands at the beginning. -/
def anyOf (pats : List (List α)) (nonempty : ∀ pat ∈ pats, pat ≠ []) : Matcher α where
  size s := (pats.find? (· <+: s)).map List.length
  inside {s n} found := by
    obtain ⟨pat, listed, rfl⟩ := Option.map_eq_some_iff.1 found
    have here : pat <+: s := of_decide_eq_true (List.find?_some (p := fun pat => decide (pat <+: s)) listed)
    exact ⟨List.length_pos_of_ne_nil (nonempty pat (List.mem_of_find?_eq_some listed)), here.length_le⟩

variable {nonempty : ∀ pat ∈ pats, pat ≠ []}

theorem size_anyOf_eq_none : (anyOf pats nonempty).size s = none ↔ ∀ pat ∈ pats, ¬ pat <+: s := by
  simp [anyOf]

theorem first_anyOf_eq_none : (anyOf pats nonempty).first s = none ↔ ∀ pat ∈ pats, ¬ pat <:+: s := by
  rw [first_eq_none_iff]
  constructor
  · rintro none' pat mem ⟨before, behind, rfl⟩
    apply size_anyOf_eq_none.1 (none' before.length) pat mem
    rw [List.append_assoc, List.drop_left]
    exact List.prefix_append pat behind
  · intro none' j
    refine size_anyOf_eq_none.2 fun pat mem here => none' pat mem ?_
    exact here.isInfix.trans (List.drop_suffix j s).isInfix

/-- No pattern stands in a part. -/
theorem not_infix_of_mem_cut {part : List α} (mem : part ∈ (anyOf pats nonempty).cut s) : ∀ pat ∈ pats, ¬ pat <:+: part := by
  revert mem
  refine cut_induction (m := anyOf pats nonempty) (P := fun s => part ∈ (anyOf pats nonempty).cut s → ∀ pat ∈ pats, ¬ pat <:+: part)
    ?_ ?_ s
  · intro s none' mem
    rw [cut_of_none none', List.mem_singleton] at mem
    subst mem
    exact first_anyOf_eq_none.1 none'
  · intro s i n found ih mem
    rw [cut_of_first found, List.mem_cons] at mem
    rcases mem with rfl | mem
    · rintro pat listed ⟨before, behind, same⟩
      have length := congrArg List.length same
      have pos := List.length_pos_of_ne_nil (nonempty pat listed)
      simp only [List.length_append, List.length_take] at length
      have none' := (first_eq_some_iff.1 found).2 before.length (by omega)
      apply size_anyOf_eq_none.1 none' pat listed
      have whole : s = before ++ (pat ++ (behind ++ s.drop i)) := by
        rw [← List.append_assoc, ← List.append_assoc, same, List.take_append_drop]
      rw [whole, List.drop_left]
      exact List.prefix_append pat _
    · exact ih mem

variable {single : ∀ p ∈ [pat], p ≠ []}

theorem first_single : (anyOf [pat] single).first s = (findSub pat s).map fun i => (i, pat.length) := by
  have pattern : pat ≠ [] := single pat List.mem_cons_self
  induction s with
  | nil => simp [first, findSub, pattern]
  | cons c s ih =>
    rw [first, findSub, ih]
    by_cases here : pat <+: c :: s
    · have size : (anyOf [pat] single).size (c :: s) = some pat.length := by simp [anyOf, here]
      rw [size, if_pos here]
      rfl
    · have size : (anyOf [pat] single).size (c :: s) = none := by simp [anyOf, here]
      rw [size, if_neg here, Option.map_map, Option.map_map]
      rfl

/-- The pieces between the matches of one pattern. -/
theorem pieces_eq_cut : pieces pat s = (anyOf [pat] single).cut s := by
  have pattern : pat ≠ [] := single pat List.mem_cons_self
  refine cut_induction (m := anyOf [pat] single) (P := fun s => pieces pat s = (anyOf [pat] single).cut s) ?_ ?_ s
  · intro s none'
    rw [cut_of_none none']
    rw [first_single, Option.map_eq_none_iff] at none'
    exact pieces_eq_singleton none'
  · intro s i n found ih
    rw [cut_of_first found, ← ih]
    rw [first_single] at found
    obtain ⟨j, here, pair⟩ := Option.map_eq_some_iff.1 found
    obtain ⟨rfl, rfl⟩ := Prod.mk.inj pair
    exact pieces_eq_cons pattern here

/-- The parts, with the pattern between them, are the list. -/
theorem intercalate_cut (s : List α) : pat.intercalate ((anyOf [pat] single).cut s) = s := by
  refine cut_induction (m := anyOf [pat] single) (P := fun s => pat.intercalate ((anyOf [pat] single).cut s) = s) ?_ ?_ s
  · intro s none'
    rw [cut_of_none none']
    exact List.intercalate_singleton
  · intro s i n found ih
    have nonempty : (anyOf [pat] single).cut (s.drop (i + n)) ≠ [] := by
      cases later : (anyOf [pat] single).first (s.drop (i + n)) with
      | none =>
        rw [cut_of_none later]
        exact List.cons_ne_nil _ _
      | some place =>
        rw [cut_of_first later]
        exact List.cons_ne_nil _ _
    rw [cut_of_first found, List.intercalate_cons_of_ne_nil nonempty, ih]
    obtain ⟨found, size⟩ : pat <+: s.drop i ∧ pat.length = n := by
      have size := (first_eq_some_iff.1 found).1
      simpa [anyOf] using size
    obtain ⟨rest, same⟩ := found
    rw [← size, ← List.drop_drop, ← same, List.drop_left, List.append_assoc, same, List.take_append_drop]

end Patterns

end Matcher

end GameServer.Lib

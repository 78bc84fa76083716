import Mathlib.Data.List.Infix

/-!
# Searching and splitting lists

`findSub pat s` is the first place where `pat` stands in `s`, and `pieces` cuts a list at every
`pat`. The place does not move when the list goes on (`findSub_take`), and a part that has no `pat`
is skipped (`findSub_skip`).
-/

namespace GameServer.Lib

variable {α : Type} [DecidableEq α] {pat s t l : List α} {i j k n : Nat}

/-- The first place where `pat` stands in `s`. -/
def findSub (pat : List α) : List α → Option Nat
  | [] => if pat = [] then some 0 else none
  | c :: cs => if pat <+: c :: cs then some 0 else (findSub pat cs).map (· + 1)

theorem findSub_eq_some_iff : findSub pat s = some i ↔ i ≤ s.length ∧ pat <+: s.drop i ∧ ∀ j, j < i → ¬ pat <+: s.drop j := by
  induction s generalizing i with
  | nil =>
    rw [findSub]
    split_ifs with empty
    · subst empty
      constructor
      · intro same
        obtain rfl := Option.some.inj same
        exact ⟨Nat.le_refl _, List.nil_prefix, fun j less => absurd less (Nat.not_lt_zero j)⟩
      · rintro ⟨le, -, -⟩
        rw [Nat.le_zero.1 le]
    · constructor
      · intro same
        cases same
      · rintro ⟨-, here, -⟩
        rw [List.drop_nil, List.prefix_nil] at here
        exact absurd here empty
  | cons c cs ih =>
    rw [findSub]
    split_ifs with here
    · constructor
      · intro same
        obtain rfl := Option.some.inj same
        exact ⟨Nat.zero_le _, here, fun j less => absurd less (Nat.not_lt_zero j)⟩
      · rintro ⟨-, -, first⟩
        rcases Nat.eq_zero_or_pos i with rfl | pos
        · rfl
        · exact absurd here (first 0 pos)
    · rw [Option.map_eq_some_iff]
      constructor
      · rintro ⟨i, found, rfl⟩
        obtain ⟨le, there, first⟩ := ih.1 found
        refine ⟨Nat.succ_le_succ le, there, fun j less => ?_⟩
        cases j with
        | zero => exact here
        | succ j => exact first j (Nat.lt_of_succ_lt_succ less)
      · rintro ⟨le, there, first⟩
        cases i with
        | zero => exact absurd there here
        | succ i =>
          refine ⟨i, ih.2 ⟨Nat.le_of_succ_le_succ le, there, fun j less => ?_⟩, rfl⟩
          exact first (j + 1) (Nat.succ_lt_succ less)

theorem findSub_eq_none_iff (pattern : pat ≠ []) : findSub pat s = none ↔ ∀ j, ¬ pat <+: s.drop j := by
  induction s with
  | nil => simp [findSub, pattern]
  | cons c cs ih =>
    rw [findSub]
    split_ifs with here
    · simp only [false_iff, not_forall, not_not]
      exact ⟨0, here⟩
    · rw [Option.map_eq_none_iff, ih]
      constructor
      · intro none j
        cases j with
        | zero => exact here
        | succ j => exact none j
      · intro none j
        exact none (j + 1)

/-- The match is inside the list. -/
theorem add_length_le_of_findSub (found : findSub pat s = some i) : i + pat.length ≤ s.length := by
  obtain ⟨le, here, -⟩ := findSub_eq_some_iff.1 found
  have := here.length_le
  rw [List.length_drop] at this
  omega

/-- In a first part of the list the first match is the same, if it is in there. -/
theorem findSub_take (pattern : pat ≠ []) (found : findSub pat s = some i) (n : Nat) :
    findSub pat (s.take n) = if i + pat.length ≤ n then some i else none := by
  obtain ⟨le, here, first⟩ := findSub_eq_some_iff.1 found
  have pos := List.length_pos_of_ne_nil pattern
  have inside := add_length_le_of_findSub found
  have shorter : ∀ j, pat <+: (s.take n).drop j → pat <+: s.drop j ∧ j + pat.length ≤ n := by
    intro j there
    rw [List.drop_take] at there
    have length := there.length_le
    rw [List.length_take] at length
    exact ⟨there.trans (List.take_prefix _ _), by omega⟩
  split_ifs with fits
  · refine findSub_eq_some_iff.2 ⟨by rw [List.length_take]; omega, ?_, fun j less there => first j less (shorter j there).1⟩
    rw [List.drop_take, List.prefix_take_iff]
    exact ⟨here, by omega⟩
  · refine (findSub_eq_none_iff pattern).2 fun j there => ?_
    obtain ⟨match', room⟩ := shorter j there
    exact first j (by omega) match'

/-- A first part without a match is skipped. -/
theorem findSub_skip (le : k ≤ s.length) (none : ∀ j, j < k → ¬ pat <+: s.drop j) :
    findSub pat s = (findSub pat (s.drop k)).map (· + k) := by
  induction k generalizing s with
  | zero => simp
  | succ k ih =>
    cases s with
    | nil => exact absurd le (Nat.not_succ_le_zero k)
    | cons c cs =>
      have here : ¬ pat <+: c :: cs := none 0 (Nat.succ_pos k)
      rw [findSub, if_neg here, List.drop_succ_cons,
        ih (Nat.le_of_succ_le_succ le) fun j less => none (j + 1) (Nat.succ_lt_succ less), Option.map_map]
      rfl

/-- Elements that `pat` does not begin with are skipped. -/
theorem findSub_append_of_not_mem {c : α} (first : pat.head? = some c) (absent : c ∉ l) :
    findSub pat (l ++ t) = (findSub pat t).map (· + l.length) := by
  have none : ∀ j, j < l.length → ¬ pat <+: (l ++ t).drop j := by
    intro j less here
    cases pat with
    | nil => cases first
    | cons d ds =>
      obtain rfl := Option.some.inj first
      rw [List.drop_append_of_le_length (Nat.le_of_lt less), List.drop_eq_getElem_cons less, List.cons_append,
        List.cons_prefix_cons] at here
      exact absent (here.1 ▸ List.getElem_mem less)
  rw [findSub_skip (by simp) none, List.drop_left]

theorem findSub_append_left : findSub pat (pat ++ t) = some 0 :=
  findSub_eq_some_iff.2 ⟨Nat.zero_le _, List.prefix_append _ _, fun j less => absurd less (Nat.not_lt_zero j)⟩

theorem findSub_of_not_mem {c : α} (first : pat.head? = some c) (absent : c ∉ l) : findSub pat l = none := by
  have skip := findSub_append_of_not_mem (t := []) first absent
  rw [List.append_nil] at skip
  cases pat with
  | nil => cases first
  | cons d ds => rw [skip, findSub, if_neg (List.cons_ne_nil d ds), Option.map_none]

/-- `pat` stands behind the elements that it does not begin with. -/
theorem findSub_append {c : α} (first : pat.head? = some c) (absent : c ∉ l) : findSub pat (l ++ (pat ++ t)) = some l.length := by
  rw [findSub_append_of_not_mem first absent, findSub_append_left, Option.map_some, Nat.zero_add]

/-- What stands between the matches, in so many cuts at most. -/
def piecesUpTo (pat : List α) : Nat → List α → List (List α)
  | 0, s => [s]
  | n + 1, s =>
    match findSub pat s with
    | none => [s]
    | some i => s.take i :: piecesUpTo pat n (s.drop (i + pat.length))

/-- What stands between the matches. -/
def pieces (pat : List α) (s : List α) : List (List α) := piecesUpTo pat s.length s

theorem piecesUpTo_eq (pattern : pat ≠ []) (enough : s.length ≤ n) : piecesUpTo pat n s = pieces pat s := by
  have pos := List.length_pos_of_ne_nil pattern
  have same : ∀ n m : Nat, ∀ s : List α, s.length ≤ n → s.length ≤ m → piecesUpTo pat n s = piecesUpTo pat m s := by
    intro n
    induction n with
    | zero =>
      intro m s le _
      have empty := List.length_eq_zero_iff.1 (Nat.le_zero.1 le)
      subst empty
      cases m with
      | zero => rfl
      | succ m => simp [piecesUpTo, findSub, pattern]
    | succ n ih =>
      intro m s le le'
      cases m with
      | zero =>
        have empty := List.length_eq_zero_iff.1 (Nat.le_zero.1 le')
        subst empty
        simp [piecesUpTo, findSub, pattern]
      | succ m =>
        rw [piecesUpTo, piecesUpTo]
        cases found : findSub pat s with
        | none => rfl
        | some i =>
          have inside := add_length_le_of_findSub found
          have rest : ∀ b, s.length ≤ b + 1 → (s.drop (i + pat.length)).length ≤ b := by
            intro b bound
            rw [List.length_drop]
            omega
          simp only [ih m (s.drop (i + pat.length)) (rest n le) (rest m le')]
  exact same n s.length s enough (Nat.le_refl _)

theorem pieces_eq_singleton (none : findSub pat s = none) : pieces pat s = [s] := by
  rw [pieces]
  cases s.length with
  | zero => rfl
  | succ n => rw [piecesUpTo, none]

theorem pieces_eq_cons (pattern : pat ≠ []) (found : findSub pat s = some i) :
    pieces pat s = s.take i :: pieces pat (s.drop (i + pat.length)) := by
  have pos := List.length_pos_of_ne_nil pattern
  have inside := add_length_le_of_findSub found
  obtain ⟨n, length⟩ : ∃ n, s.length = n + 1 := Nat.exists_eq_succ_of_ne_zero (by omega)
  rw [pieces, length, piecesUpTo, found]
  simp only
  rw [piecesUpTo_eq pattern]
  rw [List.length_drop]
  omega

/-- The first piece has no element that `pat` begins with. -/
theorem pieces_append {c : α} (first : pat.head? = some c) (absent : c ∉ l) :
    pieces pat (l ++ (pat ++ t)) = l :: pieces pat t := by
  have pattern : pat ≠ [] := by
    rintro rfl
    cases first
  rw [pieces_eq_cons pattern (findSub_append first absent), List.take_left, ← List.drop_drop, List.drop_left, List.drop_left]

omit [DecidableEq α] in
/-- The part before a match is left out when it is empty. -/
theorem filter_take_cons {l : List (List α)} (less : i < s.length) :
    (s.take i :: l).filter (· ≠ []) = (if i ≠ 0 then [s.take i] else []) ++ l.filter (· ≠ []) := by
  have part : s.take i = [] ↔ i = 0 := by
    rw [List.take_eq_nil_iff]
    constructor
    · rintro (zero | empty)
      · exact zero
      · rw [empty, List.length_nil] at less
        omega
    · exact .inl
  by_cases first : i = 0 <;> simp [first, part]

theorem pieces_of_not_mem {c : α} (first : pat.head? = some c) (absent : c ∉ l) : pieces pat l = [l] :=
  pieces_eq_singleton (findSub_of_not_mem first absent)

section Terminated

variable {A : Type} (content behind : A → List α)

/-- The pieces of a list of contents, each with a separator and something behind it, and something before all of them. -/
def terminated : List α → List A → List (List α)
  | before, [] => [before]
  | before, x :: xs => (before ++ content x) :: terminated (behind x) xs

variable {content behind}

theorem pieces_terminated {c : α} {before : List α} {xs : List A} (free : c ∉ before)
    (each : ∀ x ∈ xs, c ∉ content x ∧ c ∉ behind x) :
    pieces [c] (before ++ xs.flatMap fun x => content x ++ c :: behind x) = terminated content behind before xs := by
  induction xs generalizing before with
  | nil =>
    rw [List.flatMap_nil, List.append_nil]
    exact pieces_of_not_mem rfl free
  | cons x xs ih =>
    obtain ⟨here, rest⟩ := List.forall_mem_cons.1 each
    have free' : c ∉ before ++ content x := by
      rw [List.mem_append]
      exact fun mem => mem.elim free here.1
    have cut : pieces [c] ((before ++ content x) ++ ([c] ++ (behind x ++ xs.flatMap fun x => content x ++ c :: behind x))) =
        (before ++ content x) :: pieces [c] (behind x ++ xs.flatMap fun x => content x ++ c :: behind x) := pieces_append rfl free'
    rw [ih here.2 rest] at cut
    rw [List.flatMap_cons, terminated, ← cut]
    simp only [List.append_assoc, List.cons_append, List.nil_append]

end Terminated

/-- The first `skip` elements belong to the last match. -/
def occurrencesFrom (pat : List α) : Nat → List α → Nat
  | _, [] => 0
  | skip + 1, _ :: s => occurrencesFrom pat skip s
  | 0, c :: s => if pat <+: c :: s then occurrencesFrom pat (pat.length - 1) s + 1 else occurrencesFrom pat 0 s

/-- The number of matches from the left that do not overlap. -/
def occurrences (pat s : List α) : Nat := occurrencesFrom pat 0 s

theorem occurrencesFrom_drop (pat : List α) (skip : Nat) (s : List α) :
    occurrencesFrom pat skip s = occurrences pat (s.drop skip) := by
  induction skip generalizing s with
  | zero => rfl
  | succ skip ih =>
    cases s with
    | nil => rfl
    | cons c s => rw [occurrencesFrom, ih, List.drop_succ_cons]

theorem occurrences_eq_zero (none : findSub pat s = none) : occurrences pat s = 0 := by
  induction s with
  | nil => rfl
  | cons c s ih =>
    rw [findSub] at none
    split_ifs at none with here
    rw [occurrences, occurrencesFrom, if_neg here]
    exact ih (Option.map_eq_none_iff.1 none)

/-- The matches after the first one. -/
theorem occurrences_eq_succ (pattern : pat ≠ []) (found : findSub pat s = some i) :
    occurrences pat s = occurrences pat (s.drop (i + pat.length)) + 1 := by
  have pos := List.length_pos_of_ne_nil pattern
  induction s generalizing i with
  | nil => simp [findSub, pattern] at found
  | cons c s ih =>
    rw [findSub] at found
    rw [occurrences, occurrencesFrom]
    split_ifs at found ⊢ with here
    · obtain rfl := Option.some.inj found
      obtain ⟨n, length⟩ := Nat.exists_eq_add_of_lt pos
      rw [occurrencesFrom_drop, length, Nat.zero_add, Nat.zero_add, Nat.add_sub_cancel, List.drop_succ_cons]
    · obtain ⟨j, later, rfl⟩ := Option.map_eq_some_iff.1 found
      rw [Nat.add_right_comm, List.drop_succ_cons]
      exact ih later

/-- There is one piece more than matches. -/
theorem length_pieces (pattern : pat ≠ []) (s : List α) : (pieces pat s).length = occurrences pat s + 1 := by
  have pos := List.length_pos_of_ne_nil pattern
  induction size : s.length using Nat.strongRecOn generalizing s with
  | _ n ih =>
    cases found : findSub pat s with
    | none => rw [pieces_eq_singleton found, occurrences_eq_zero found, List.length_singleton]
    | some i =>
      have inside := add_length_le_of_findSub found
      have less : (s.drop (i + pat.length)).length < n := by
        rw [List.length_drop]
        omega
      rw [pieces_eq_cons pattern found, occurrences_eq_succ pattern found, List.length_cons, ih _ less _ rfl]

end GameServer.Lib

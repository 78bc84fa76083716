import GameServer.Proto.Loading

/-!
# Splitting strings at a set of characters

`Helper::SplitString` looks for any character of `delims`, but goes on `delims.length()` characters behind the one it found, and it
keeps what is left at the end even if it is empty. Where that leads behind the end of the string, `substr` throws. What comes out
are the pieces between the delimiters if and only if they come in blocks of that length, and not at the end (`SplitString_iff`).
-/

namespace GameServer.LibGame.Helper

variable {f : List UInt8 → List UInt8} {str delims u d rest : List UInt8} {allowempty : Bool} {turns pos : Nat}
  {ret more : List (List UInt8)}

/-- The loop of `SplitString` on the string from `start` on, with so many turns at most, where `f` is made of the pieces. There is
no result where `start` comes to lie behind the end, for then nothing is found and `substr` throws. -/
def splitLoop (f : List UInt8 → List UInt8) (delims : List UInt8) (allowempty : Bool) : Nat → List UInt8 → Option (List (List UInt8))
  | 0, _ => none
  | turns + 1, str =>
    match str.findIdx? (· ∈ delims) with
    | none => some [f str]
    | some pos =>
      let more :=
        if pos + delims.length ≤ str.length then splitLoop f delims allowempty turns (str.drop (pos + delims.length)) else none
      if pos = 0 then more.map fun ret => if allowempty then [] :: ret else ret
      else more.map (f (str.take pos) :: ·)

/-- `SplitString` with `f` in the place of `Trim`. -/
def splitWith (f : List UInt8 → List UInt8) (str delims : List UInt8) (allowempty : Bool) : Option (List (List UInt8)) :=
  if str = [] then some [] else splitLoop f delims allowempty (str.length + 1) str

def SplitString (str delims : List UInt8) (allowempty : Bool) : Option (List (List UInt8)) :=
  splitWith Proto.trim str delims allowempty

/-- **The pieces** between the characters of `delims`. -/
def pieces (str delims : List UInt8) (allowempty : Bool) : List (List UInt8) :=
  if allowempty then str.splitOnP (· ∈ delims) else (str.splitOnP (· ∈ delims)).filter (· ≠ [])

/-- No character is a delimiter. -/
def Free (delims u : List UInt8) : Prop := ∀ c ∈ u, c ∉ delims

/-- Pieces without delimiters, and between them blocks of as many delimiters as `delims` has. The last piece is not empty. -/
inductive Blocks (delims : List UInt8) : List UInt8 → Prop where
  | last {u : List UInt8} (free : Free delims u) (some' : u ≠ []) : Blocks delims u
  | more {u block rest : List UInt8} (free : Free delims u) (length : block.length = delims.length)
      (all : ∀ c ∈ block, c ∈ delims) : Blocks delims rest → Blocks delims (u ++ block ++ rest)

/-- The strings whose pieces come out. -/
def Sized (delims str : List UInt8) : Bool → Prop
  | true => str ≠ [] ∧ (delims.length = 1 ∨ Free delims str)
  | false => str = [] ∨ Blocks delims str

section Loop

/-- A string has no delimiter, or a first one. -/
theorem free_or_first (delims str : List UInt8) :
    Free delims str ∨ ∃ u c rest, str = u ++ c :: rest ∧ Free delims u ∧ c ∈ delims := by
  induction str with
  | nil => exact .inl fun c mem => absurd mem List.not_mem_nil
  | cons a str ih =>
    by_cases here : a ∈ delims
    · exact .inr ⟨[], a, str, rfl, fun c mem => absurd mem List.not_mem_nil, here⟩
    rcases ih with free | ⟨u, c, rest, rfl, free, mem⟩
    · exact .inl (List.forall_mem_cons.2 ⟨here, free⟩)
    · exact .inr ⟨a :: u, c, rest, rfl, List.forall_mem_cons.2 ⟨here, free⟩, mem⟩

theorem splitLoop_free (free : Free delims str) : splitLoop f delims allowempty (turns + 1) str = some [f str] := by
  have none' : str.findIdx? (· ∈ delims) = none := by
    rw [List.findIdx?_eq_none_iff]
    intro c mem
    simpa using free c mem
  rw [splitLoop, none']

theorem splitLoop_first {c : UInt8} (free : Free delims u) (first : c ∈ delims) :
    splitLoop f delims allowempty (turns + 1) (u ++ c :: rest) =
      (if delims.length ≤ (c :: rest).length then splitLoop f delims allowempty turns ((c :: rest).drop delims.length)
        else none).map fun ret => if u ≠ [] then f u :: ret else if allowempty then [] :: ret else ret := by
  have found : (u ++ c :: rest).findIdx? (· ∈ delims) = some u.length := by
    have none' : u.findIdx? (· ∈ delims) = none := by
      rw [List.findIdx?_eq_none_iff]
      intro c mem
      simpa using free c mem
    simp [List.findIdx?_append, none', List.findIdx?_cons, first]
  have jump : (u ++ c :: rest).drop (u.length + delims.length) = (c :: rest).drop delims.length := by
    rw [← List.drop_drop, List.drop_left]
  rw [splitLoop, found]
  simp only [List.length_append, Nat.add_le_add_iff_left, jump, List.take_left, List.length_eq_zero_iff]
  by_cases empty : u = [] <;> simp [empty]

/-- Trimming could as well be done last. -/
theorem splitLoop_map (nothing : f [] = []) (turns : Nat) (str : List UInt8) :
    splitLoop f delims allowempty turns str = (splitLoop id delims allowempty turns str).map (List.map f) := by
  induction turns generalizing str with
  | zero => rfl
  | succ turns ih =>
    rcases free_or_first delims str with free | ⟨u, c, rest, rfl, free, first⟩
    · rw [splitLoop_free free, splitLoop_free free]
      rfl
    · rw [splitLoop_first free first, splitLoop_first free first, ih]
      split_ifs <;> simp [Function.comp_def, nothing]

/-- The number of characters that are no delimiters. -/
def plain (delims str : List UInt8) : Nat := str.countP (· ∉ delims)

theorem plain_append (u v : List UInt8) : plain delims (u ++ v) = plain delims u + plain delims v := List.countP_append

theorem plain_of_free (free : Free delims u) : plain delims u = u.length := by
  rw [plain, List.countP_eq_length]
  exact fun c mem => decide_eq_true (free c mem)

/-- The characters of the pieces. -/
def sum (ret : List (List UInt8)) : Nat := (ret.map List.length).sum

/-- A turn of the loop: the last one, or one that goes on behind a block of characters. -/
inductive Turn (delims : List UInt8) (allowempty : Bool) (turns : Nat) : List UInt8 → List (List UInt8) → Prop where
  | last {str : List UInt8} (free : Free delims str) : Turn delims allowempty turns str [str]
  | skip {u block rest : List UInt8} {more : List (List UInt8)} (free : Free delims u) (length : block.length = delims.length)
      (later : splitLoop id delims allowempty turns rest = some more) :
      Turn delims allowempty turns (u ++ block ++ rest) (if u ≠ [] then u :: more else if allowempty then [] :: more else more)

theorem turn_of_splitLoop (result : splitLoop id delims allowempty (turns + 1) str = some ret) :
    Turn delims allowempty turns str ret := by
  rcases free_or_first delims str with free | ⟨u, c, rest, rfl, free, first⟩
  · rw [splitLoop_free free] at result
    cases result
    exact .last free
  · rw [splitLoop_first free first] at result
    obtain ⟨more, behind, rfl⟩ := Option.map_eq_some_iff.1 result
    split at behind
    next fits =>
      have parts : u ++ c :: rest = u ++ (c :: rest).take delims.length ++ (c :: rest).drop delims.length := by
        rw [List.append_assoc, List.take_append_drop]
      rw [parts]
      exact .skip free (List.length_take_of_le fits) behind
    next => cases behind

/-- No character comes out twice, and no delimiter. -/
theorem sum_le_plain (result : splitLoop id delims allowempty turns str = some ret) : sum ret ≤ plain delims str := by
  induction turns generalizing str ret with
  | zero => cases result
  | succ turns ih =>
    cases turn_of_splitLoop result with
    | last free => simp [sum, plain_of_free free]
    | @skip u block rest more free length later =>
      have behind := ih later
      rw [plain_append, plain_append, plain_of_free free]
      split_ifs <;> simp only [sum, List.map_cons, List.sum_cons, List.length_nil] at behind ⊢ <;> omega

/-- If all of them come out and no piece is empty, only blocks of delimiters were skipped. -/
theorem blocks_of_sum (result : splitLoop id delims false turns str = some ret) (all : plain delims str ≤ sum ret)
    (some' : [] ∉ ret) : Blocks delims str := by
  induction turns generalizing str ret with
  | zero => cases result
  | succ turns ih =>
    cases turn_of_splitLoop result with
    | last free => exact .last free fun empty => some' (by simp [empty])
    | @skip u block rest more free length later =>
      have behind := sum_le_plain later
      rw [plain_append, plain_append, plain_of_free free] at all
      have counts : plain delims block = 0 ∧ plain delims rest ≤ sum more ∧ [] ∉ more := by
        by_cases empty : u = []
        · simp only [empty, ne_eq, not_true, if_false, Bool.false_eq_true, List.length_nil] at all some'
          exact ⟨by omega, by omega, some'⟩
        · simp only [empty, ne_eq, not_false_eq_true, if_true, sum, List.map_cons, List.sum_cons, List.mem_cons,
            not_or] at all some' behind ⊢
          exact ⟨by omega, by omega, some'.2⟩
      refine .more free length (fun c mem => ?_) (ih later counts.2.1 counts.2.2)
      simpa using List.countP_eq_zero.1 counts.1 c mem

/-- Every character comes out or was skipped. -/
theorem sum_add (result : splitLoop id delims true turns str = some ret) :
    ret ≠ [] ∧ sum ret + (ret.length - 1) * delims.length = str.length := by
  induction turns generalizing str ret with
  | zero => cases result
  | succ turns ih =>
    cases turn_of_splitLoop result with
    | last free => simp [sum]
    | @skip u block rest more free length later =>
      obtain ⟨some', behind⟩ := ih later
      obtain ⟨n, count⟩ : ∃ n, more.length = n + 1 := Nat.exists_eq_succ_of_ne_zero (mt List.length_eq_zero_iff.1 some')
      have piece : (if u ≠ [] then u :: more else if true = true then [] :: more else more) = u :: more := by
        by_cases empty : u = [] <;> simp [empty]
      rw [count, Nat.add_sub_cancel] at behind
      rw [piece]
      refine ⟨List.cons_ne_nil _ _, ?_⟩
      simp only [sum, List.map_cons, List.sum_cons, List.length_cons, count, Nat.add_sub_cancel, Nat.succ_mul,
        List.length_append, length] at behind ⊢
      omega

end Loop

section Pieces

theorem splitOnP_first {c : UInt8} (free : Free delims u) (first : c ∈ delims) (rest : List UInt8) :
    (u ++ c :: rest).splitOnP (· ∈ delims) = u :: rest.splitOnP (· ∈ delims) :=
  List.splitOnP_append_cons_of_forall_mem (fun c mem => decide_eq_false (free c mem)) c (decide_eq_true first) rest

theorem splitOnP_free (free : Free delims u) : u.splitOnP (· ∈ delims) = [u] :=
  List.splitOnP_eq_singleton fun c mem => decide_eq_false (free c mem)

/-- The pieces have all characters but the delimiters, and there is one more piece than delimiters. -/
theorem splitOnP_counts (delims str : List UInt8) : sum (str.splitOnP (· ∈ delims)) = plain delims str ∧
    (str.splitOnP (· ∈ delims)).length + plain delims str = str.length + 1 := by
  induction h : str.length using Nat.strong_induction_on generalizing str with
  | _ n ih =>
    rcases free_or_first delims str with free | ⟨u, c, rest, rfl, free, first⟩
    · simp [splitOnP_free free, sum, plain_of_free free, ← h, Nat.add_comm]
    · rw [List.length_append, List.length_cons] at h
      obtain ⟨sums, lengths⟩ := ih rest.length (by omega) rest rfl
      have delim : plain delims (c :: rest) = plain delims rest := by simp [plain, first]
      rw [splitOnP_first free first, plain_append, plain_of_free free, delim]
      simp only [sum, List.map_cons, List.sum_cons, List.length_cons] at sums ⊢
      omega

/-- Empty pieces have no characters. -/
theorem sum_filter (ret : List (List UInt8)) : sum (ret.filter (· ≠ [])) = sum ret := by
  induction ret with
  | nil => rfl
  | cons u ret ih =>
    by_cases empty : u = []
    · subst empty
      simpa [sum] using ih
    · rw [List.filter_cons_of_pos (by simpa using empty)]
      simp only [sum, List.map_cons, List.sum_cons] at ih ⊢
      rw [ih]

/-- A block of delimiters leaves only empty pieces. -/
theorem filter_block {block : List UInt8} (all : ∀ c ∈ block, c ∈ delims) (rest : List UInt8) :
    ((block ++ rest).splitOnP (· ∈ delims)).filter (· ≠ []) = (rest.splitOnP (· ∈ delims)).filter (· ≠ []) := by
  induction block with
  | nil => rfl
  | cons c block ih =>
    obtain ⟨first, others⟩ := List.forall_mem_cons.1 all
    rw [List.cons_append, ← List.nil_append (c :: (block ++ rest)), splitOnP_first (fun c mem => absurd mem List.not_mem_nil) first]
    exact ih others

theorem splitLoop_of_blocks (nonempty : delims ≠ []) (blocks : Blocks delims str) (enough : str.length < turns) :
    splitLoop id delims false turns str = some (pieces str delims false) := by
  induction blocks generalizing turns with
  | last free some' =>
    obtain ⟨turns, rfl⟩ : ∃ n, turns = n + 1 := ⟨turns - 1, by omega⟩
    rw [splitLoop_free free, pieces, splitOnP_free free]
    simp [some']
  | @more u block rest free length all _ ih =>
    obtain ⟨turns, rfl⟩ : ∃ n, turns = n + 1 := ⟨turns - 1, by omega⟩
    obtain ⟨c, block, rfl⟩ : ∃ c block', block = c :: block' := by
      refine List.exists_cons_of_ne_nil fun empty => nonempty ?_
      rw [empty] at length
      exact List.length_eq_zero_iff.1 length.symm
    obtain ⟨first, others⟩ := List.forall_mem_cons.1 all
    have jump : (c :: (block ++ rest)).drop delims.length = rest := by
      rw [← length, ← List.cons_append, List.drop_left]
    have fits : delims.length ≤ (c :: (block ++ rest)).length := by
      rw [← length, ← List.cons_append, List.length_append]
      omega
    rw [List.append_assoc, List.cons_append, splitLoop_first free first, jump, if_pos fits, ih, pieces, pieces]
    · simp only [Bool.false_eq_true, if_false, Option.map_some, splitOnP_first free first, List.filter_cons, filter_block others]
      by_cases empty : u = [] <;> simp [empty]
    · simp only [List.length_append, List.length_cons] at enough
      omega

theorem splitLoop_of_one (one : delims.length = 1) (enough : str.length < turns) :
    splitLoop id delims true turns str = some (pieces str delims true) := by
  induction turns generalizing str with
  | zero => exact absurd enough (Nat.not_lt_zero _)
  | succ turns ih =>
    rcases free_or_first delims str with free | ⟨u, c, rest, rfl, free, first⟩
    · rw [splitLoop_free free, pieces, if_pos rfl, splitOnP_free free]
      rfl
    · have fits : delims.length ≤ (c :: rest).length := by simp [one]
      rw [splitLoop_first free first, if_pos fits, one, List.drop_succ_cons, List.drop_zero, ih, pieces, pieces, if_pos rfl, if_pos rfl,
        splitOnP_first free first]
      · by_cases empty : u = [] <;> simp [empty]
      · simp only [List.length_append, List.length_cons] at enough
        omega

end Pieces

/-- **What the loop makes of a string** are its pieces if and only if it is sized. -/
theorem splitWith_iff (nonempty : delims ≠ []) (str : List UInt8) (allowempty : Bool) :
    splitWith id str delims allowempty = some (pieces str delims allowempty) ↔ Sized delims str allowempty := by
  unfold splitWith
  split
  next empty =>
    subst empty
    cases allowempty with
    | true => simp [pieces, Sized]
    | false => simp [pieces, Sized]
  next some' =>
  cases allowempty with
  | true =>
    simp only [Sized, some', ne_eq, not_false_eq_true, true_and]
    constructor
    · intro result
      obtain ⟨-, counts⟩ := sum_add result
      obtain ⟨sums, lengths⟩ := splitOnP_counts delims str
      rw [pieces, if_pos rfl, sums] at counts
      obtain ⟨k, delimiters⟩ : ∃ k, (str.splitOnP (· ∈ delims)).length = k + 1 :=
        Nat.exists_eq_succ_of_ne_zero (mt List.length_eq_zero_iff.1 (List.splitOnP_ne_nil _ _))
      rw [delimiters, Nat.add_sub_cancel] at counts
      have same : k * delims.length = k * 1 := by omega
      rcases Nat.eq_zero_or_pos k with rfl | pos
      · right
        have all : plain delims str = str.length := by omega
        intro c mem
        simpa using List.countP_eq_length.1 all c mem
      · exact .inl (Nat.eq_of_mul_eq_mul_left pos same)
    · rintro (one | free)
      · exact splitLoop_of_one one (Nat.lt_succ_self _)
      · rw [splitLoop_free free, pieces, if_pos rfl, splitOnP_free free]
        rfl
  | false =>
    simp only [Sized, some', false_or]
    constructor
    · intro result
      refine blocks_of_sum result ?_ ?_
      · simp only [pieces, Bool.false_eq_true, if_false, sum_filter, splitOnP_counts, le_refl]
      · simp [pieces]
    · intro blocks
      exact splitLoop_of_blocks nonempty blocks (Nat.lt_succ_self _)

/-- **`SplitString`** makes the pieces between the delimiters, and trims them, if and only if the string is sized: with
`allowempty` if there is one delimiter or none occurs, and else if they come in blocks of `delims.length()`, none of them at the
end. -/
theorem SplitString_iff (nonempty : delims ≠ []) (str : List UInt8) (allowempty : Bool) :
    SplitString str delims allowempty = (splitWith id str delims allowempty).map (List.map Proto.trim) ∧
      (splitWith id str delims allowempty = some (pieces str delims allowempty) ↔ Sized delims str allowempty) := by
  refine ⟨?_, splitWith_iff nonempty str allowempty⟩
  unfold SplitString splitWith
  split
  · rfl
  · exact splitLoop_map rfl _ _

/-- Two lines that end in two characters each but for the last one. -/
theorem SplitString_iff_lines : SplitString [97, 13, 10, 98] [13, 10] false = some [[97], [98]] := by
  have nonempty : ([13, 10] : List UInt8) ≠ [] := by decide
  obtain ⟨trimmed, iff⟩ := SplitString_iff nonempty [97, 13, 10, 98] false
  have blocks : Blocks [13, 10] ([97] ++ [13, 10] ++ [98]) :=
    .more (by simp [Free]) rfl (by simp) (.last (by simp [Free]) (by simp))
  rw [trimmed, iff.2 (.inr blocks)]
  decide

/-- A line that ends in one of the two characters throws, and a delimiter at the end leaves an empty piece. -/
theorem SplitString_throws : splitWith id [97, 98, 99, 10] [13, 10] false = none ∧
    splitWith id [97, 44] [44] false = some [[97], []] ∧ pieces [97, 44] [44] false = [[97]] := by
  decide

/-- With one blank it is the splitting of the message files. -/
theorem SplitString_blank (str : List UInt8) : SplitString str [32] false = some (Proto.helperSplitString str) := by
  have loop : ∀ turns (str : List UInt8), str.length < turns →
      splitLoop Proto.trim [32] false turns str = some (Proto.words str) := by
    intro turns
    induction turns with
    | zero => exact fun str enough => absurd enough (Nat.not_lt_zero _)
    | succ turns ih =>
      intro str enough
      rcases free_or_first [32] str with free | ⟨u, c, rest, rfl, free, first⟩
      · rw [splitLoop_free free, Proto.words_last fun mem => free 32 mem (List.mem_singleton_self 32)]
      · obtain rfl := List.mem_singleton.1 first
        simp only [List.length_append, List.length_cons] at enough
        rw [splitLoop_first free first, if_pos (by simp), List.length_singleton, List.drop_succ_cons, List.drop_zero,
          ih rest (by omega)]
        by_cases empty : u = []
        · simp [empty, Proto.words_blank]
        · simp [empty, Proto.words_cons empty fun mem => free 32 mem (List.mem_singleton_self 32)]
  unfold SplitString splitWith Proto.helperSplitString
  split
  · rfl
  · exact loop _ _ (Nat.lt_succ_self _)

end GameServer.LibGame.Helper

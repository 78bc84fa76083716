import Mathlib.Data.List.Find
import GameServer.Text.Splitting

/-!
# Splitting strings at several delimiters

The second `FindString` takes a list of delimiters, of which the first that stands at a place counts, and gives back its length. The
second `SplitString` looks for a delimiter before the loop, and takes the part before it without asking whether one was found. In a
text without a delimiter that part has the length `-1`, and `resize` throws; in every other text the parts are what is left without
the delimiters (`SplitStringAt_iff`).
-/

namespace GameServer.Text

open GameServer.Lib

/-- `FindString` of a list of delimiters: the place and `out_spl_size`. -/
def FindStringAt (spl : List (List UInt8)) : List UInt8 → Option (Nat × Nat)
  | [] => none
  | c :: str =>
    match spl.find? (startsWith (c :: str)) with
    | some d => some (0, d.length)
    | none => (FindStringAt spl str).map fun found => (found.1 + 1, found.2)

/-- The loop of `SplitString` from `off` on, where the next delimiter is at `pos`, with so many delimiters at most. -/
def splitLoopAt (spl : List (List UInt8)) (bEmpty : Bool) : Nat → (pos out_size : Nat) → List UInt8 → List (List UInt8)
  | 0, _, _, _ => []
  | turns + 1, pos, out_size, str =>
    let behind := str.drop (pos + out_size)
    (if bEmpty = true ∨ pos ≠ 0 then [str.take pos] else []) ++
      match FindStringAt spl behind with
      | none => if behind ≠ [] then [behind] else []
      | some (pos, out_size) => splitLoopAt spl bEmpty turns pos out_size behind

/-- `SplitString` of a list of delimiters. It has no result where `resize` throws. -/
def SplitStringAt (spl : List (List UInt8)) (bEmpty : Bool) (str : List UInt8) : Option (List (List UInt8)) :=
  if str = [] then some []
  else
    match FindStringAt spl str with
    | none => none
    | some (pos, out_size) => some (splitLoopAt spl bEmpty (str.length + 1) pos out_size str)

section Splitting

variable {spl : List (List UInt8)} {str : List UInt8} {pos out_size : Nat}

/-- Delimiters that can be found. -/
structure Delimiters (spl : List (List UInt8)) : Prop where
  nonempty : ∀ d ∈ spl, d ≠ []
  text : ∀ d ∈ spl, 0 ∉ d

theorem find?_startsWith (delimiters : Delimiters spl) (str : List UInt8) : spl.find? (startsWith str) = spl.find? (· <+: str) := by
  apply List.find?_congr
  intro d mem
  rw [Bool.eq_iff_iff, startsWith_iff (delimiters.nonempty d mem) (delimiters.text d mem), decide_eq_true_iff]

/-- `FindString` finds the first place where a delimiter stands, and the first delimiter there. -/
theorem FindStringAt_eq (delimiters : Delimiters spl) (str : List UInt8) :
    FindStringAt spl str = (Matcher.anyOf spl delimiters.nonempty).first str := by
  induction str with
  | nil => rfl
  | cons c str ih =>
    rw [FindStringAt, Matcher.first, ih, find?_startsWith delimiters]
    simp only [Matcher.anyOf]
    cases spl.find? (· <+: c :: str) <;> rfl

/-- The parts from `off` on, without the empty ones. -/
theorem splitLoopAt_eq (delimiters : Delimiters spl) (found : FindStringAt spl str = some (pos, out_size)) {turns : Nat}
    (enough : str.length < turns) :
    splitLoopAt spl false turns pos out_size str = ((Matcher.anyOf spl delimiters.nonempty).cut str).filter (· ≠ []) := by
  induction turns generalizing str pos out_size with
  | zero => exact absurd enough (Nat.not_lt_zero _)
  | succ turns ih =>
    rw [FindStringAt_eq delimiters] at found
    obtain ⟨taken, inside⟩ := Matcher.first_inside found
    have behind : (match FindStringAt spl (str.drop (pos + out_size)) with
        | none => if str.drop (pos + out_size) ≠ [] then [str.drop (pos + out_size)] else []
        | some (pos', size') => splitLoopAt spl false turns pos' size' (str.drop (pos + out_size))) =
        ((Matcher.anyOf spl delimiters.nonempty).cut (str.drop (pos + out_size))).filter (· ≠ []) := by
      cases later : FindStringAt spl (str.drop (pos + out_size)) with
      | none =>
        rw [FindStringAt_eq delimiters] at later
        rw [Matcher.cut_of_none later]
        by_cases empty : str.drop (pos + out_size) = [] <;> simp [empty]
      | some place =>
        apply ih later
        rw [List.length_drop]
        omega
    rw [splitLoopAt, Matcher.cut_of_first found, filter_take_cons (by omega), behind]
    simp

/-- **Splitting at several delimiters**: the parts that are not empty, of what is left when the text is read from left to right and at
every place the first delimiter of the list that stands there is taken out, are yielded if and only if the text is empty or has a
delimiter in it; in any other text the call throws. -/
theorem SplitStringAt_iff (spl : List (List UInt8)) (str : List UInt8) (delimiters : Delimiters spl) :
    SplitStringAt spl false str = some (((Matcher.anyOf spl delimiters.nonempty).cut str).filter (· ≠ [])) ↔
      str = [] ∨ ∃ d ∈ spl, d <:+: str := by
  unfold SplitStringAt
  split_ifs with empty
  · subst empty
    exact iff_of_true rfl (.inl rfl)
  · cases found : FindStringAt spl str with
    | none =>
      rw [FindStringAt_eq delimiters, Matcher.first_anyOf_eq_none] at found
      refine iff_of_false (Option.some_ne_none _).symm ?_
      rintro (none' | ⟨d, mem, here⟩)
      · exact empty none'
      · exact found d mem here
    | some place =>
      simp only [splitLoopAt_eq delimiters found (Nat.lt_succ_self _), true_iff]
      by_contra absent
      have none' : FindStringAt spl str = none := by
        rw [FindStringAt_eq delimiters, Matcher.first_anyOf_eq_none]
        exact fun d mem here => absent (.inr ⟨d, mem, here⟩)
      rw [none'] at found
      cases found

theorem delimiters_marks : Delimiters [[44], [59, 59], [59]] := ⟨by decide, by decide⟩

/-- At `";;"` the longer delimiter comes first in the list. -/
theorem SplitStringAt_iff_marks : SplitStringAt [[44], [59, 59], [59]] false [44, 97, 59, 59, 98, 59] = some [[97], [98]] := by
  have parts : ((Matcher.anyOf [[44], [59, 59], [59]] delimiters_marks.nonempty).cut [44, 97, 59, 59, 98, 59]).filter (· ≠ []) =
      [[97], [98]] := by decide
  have split := (SplitStringAt_iff [[44], [59, 59], [59]] [44, 97, 59, 59, 98, 59] delimiters_marks).2
    (.inr ⟨[44], List.mem_cons_self, [], [97, 59, 59, 98, 59], rfl⟩)
  rw [parts] at split
  exact split

/-- A text without a delimiter. -/
theorem SplitStringAt_throws : Delimiters [[44]] ∧ SplitStringAt [[44]] false [97] = none := ⟨⟨by decide, by decide⟩, by decide⟩

end Splitting

end GameServer.Text

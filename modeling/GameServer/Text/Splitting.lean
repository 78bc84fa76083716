import GameServer.Lib.Cutting

/-!
# Splitting strings

`FindString` compares the separator with the text at each place, and may look at the NUL behind the text. For a separator
without a NUL it finds the first place where the separator stands (`FindString_eq`), so `SplitStringHasEmpty` yields what
is between the separators (`SplitStringHasEmpty_eq`), and `SplitString` the same without the empty parts (`SplitString_cuts`).
The functions here yield what is appended to `sAstr`.
-/

namespace GameServer.Text

open GameServer.Lib

/-- The loop over `spl`, at one place of the text; behind the text there are NULs. -/
def startsWith : List UInt8 → List UInt8 → Bool
  | _, [] => false
  | str, c :: spl => str.headD 0 == c && (spl.isEmpty || startsWith str.tail spl)

/-- `FindString`; `-1` is `none`. -/
def FindString (spl : List UInt8) : List UInt8 → Option Nat
  | [] => none
  | c :: str => if startsWith (c :: str) spl then some 0 else (FindString spl str).map (· + 1)

/-- The loop of `SplitString` from `off` on, with so many separators at most. -/
def splitLoop (spl : List UInt8) (bEmpty : Bool) : Nat → List UInt8 → List (List UInt8)
  | 0, _ => []
  | turns + 1, str =>
    match FindString spl str with
    | none => if str ≠ [] ∨ bEmpty = true then [str] else []
    | some pos => (if bEmpty = true ∨ pos ≠ 0 then [str.take pos] else []) ++ splitLoop spl bEmpty turns (str.drop (pos + spl.length))

/-- `SplitString`. Every separator takes bytes, so there are no more of them than bytes. -/
def SplitString (spl : List UInt8) (bEmpty : Bool) (str : List UInt8) : List (List UInt8) :=
  if str = [] then [] else splitLoop spl bEmpty (str.length + 1) str

def SplitStringHasEmpty (spl str : List UInt8) : List (List UInt8) := if str = [] then [str] else SplitString spl true str

section Splitting

variable {spl str : List UInt8}

theorem startsWith_iff (some' : spl ≠ []) (text : 0 ∉ spl) : startsWith str spl = true ↔ spl <+: str := by
  induction spl generalizing str with
  | nil => exact absurd rfl some'
  | cons c spl ih =>
    have first : c ≠ 0 := fun zero => text (zero ▸ List.mem_cons_self)
    have rest : 0 ∉ spl := fun mem => text (List.mem_cons_of_mem c mem)
    cases str with
    | nil =>
      have other : ((0 : UInt8) == c) = false := beq_eq_false_iff_ne.2 (Ne.symm first)
      have differs : startsWith [] (c :: spl) = false := by rw [startsWith, List.headD_nil, other, Bool.false_and]
      rw [differs, List.prefix_nil]
      exact iff_of_false Bool.false_ne_true (List.cons_ne_nil c spl)
    | cons d str =>
      simp only [startsWith, List.headD_cons, List.tail_cons, Bool.and_eq_true, Bool.or_eq_true, beq_iff_eq, List.isEmpty_iff,
        List.cons_prefix_cons]
      rw [eq_comm (a := d)]
      by_cases last : spl = []
      · simp [last]
      · rw [ih last rest]
        simp [last]

/-- `FindString` finds the first place. -/
theorem FindString_eq (some' : spl ≠ []) (text : 0 ∉ spl) : FindString spl str = findSub spl str := by
  induction str with
  | nil => simp [FindString, findSub, some']
  | cons c str ih =>
    rw [FindString, findSub, ih]
    simp only [startsWith_iff some' text]

/-- The loop yields what is between the separators; without `bEmpty` it leaves the empty parts out. -/
theorem splitLoop_eq (some' : spl ≠ []) (text : 0 ∉ spl) {bEmpty : Bool} {turns : Nat} (enough : str.length < turns) :
    splitLoop spl bEmpty turns str = if bEmpty = true then pieces spl str else (pieces spl str).filter (· ≠ []) := by
  have pos := List.length_pos_of_ne_nil some'
  induction turns generalizing str with
  | zero => exact absurd enough (Nat.not_lt_zero _)
  | succ turns ih =>
    rw [splitLoop, FindString_eq some' text]
    cases found : findSub spl str with
    | none =>
      rw [pieces_eq_singleton found]
      by_cases empty : str = [] <;> simp [empty]
    | some i =>
      have inside := add_length_le_of_findSub found
      have less : (str.drop (i + spl.length)).length < turns := by
        rw [List.length_drop]
        omega
      simp only [ih less]
      rw [pieces_eq_cons some' found, filter_take_cons (by omega)]
      cases bEmpty <;> simp

/-- `SplitStringHasEmpty` yields what is between the separators. -/
theorem SplitStringHasEmpty_eq (some' : spl ≠ []) (text : 0 ∉ spl) : SplitStringHasEmpty spl str = pieces spl str := by
  unfold SplitStringHasEmpty SplitString
  split_ifs with empty
  · subst empty
    exact (pieces_eq_singleton (by simp [findSub, some'])).symm
  · exact (splitLoop_eq some' text (Nat.lt_succ_self _)).trans (if_pos rfl)

/-- **Splitting at a separator**: the parts are what is left when the text is read from left to right and every separator is taken
out. No part has the separator in it, and with it between them the parts are the text. Without `bEmpty` the same parts are yielded,
but the empty ones. -/
theorem SplitString_cuts (spl str : List UInt8) (some' : spl ≠ []) (text : 0 ∉ spl) :
    SplitStringHasEmpty spl str = (Matcher.anyOf [spl] (List.forall_mem_singleton.2 some')).cut str ∧
      (∀ part ∈ SplitStringHasEmpty spl str, ¬ spl <:+: part) ∧ spl.intercalate (SplitStringHasEmpty spl str) = str ∧
      SplitString spl false str = (SplitStringHasEmpty spl str).filter (· ≠ []) := by
  have cuts : SplitStringHasEmpty spl str = (Matcher.anyOf [spl] (List.forall_mem_singleton.2 some')).cut str := by
    rw [SplitStringHasEmpty_eq some' text]
    exact Matcher.pieces_eq_cut
  refine ⟨cuts, ?_, ?_, ?_⟩
  · intro part mem
    rw [cuts] at mem
    exact Matcher.not_infix_of_mem_cut mem spl List.mem_cons_self
  · rw [cuts]
    exact Matcher.intercalate_cut str
  · rw [SplitStringHasEmpty_eq some' text, SplitString]
    split_ifs with empty
    · subst empty
      rw [pieces_eq_singleton (by simp [findSub, some'])]
      rfl
    · exact (splitLoop_eq some' text (Nat.lt_succ_self _)).trans (if_neg Bool.false_ne_true)

/-- A separator that overlaps itself, at both ends of the text. -/
theorem SplitString_cuts_overlap : SplitStringHasEmpty [97, 97] [97, 97, 97, 98, 97, 97] = [[], [97, 98], []] ∧
    List.intercalate [97, 97] (SplitStringHasEmpty [97, 97] [97, 97, 97, 98, 97, 97]) = [97, 97, 97, 98, 97, 97] :=
  ⟨by decide, (SplitString_cuts [97, 97] [97, 97, 97, 98, 97, 97] (by decide) (by decide)).2.2.1⟩

end Splitting

end GameServer.Text

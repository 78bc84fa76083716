import Mathlib.Data.List.Basic
import Mathlib.Data.List.Infix
import Mathlib.Data.List.TakeWhile

/-!
# Self-delimiting sequences

A sequence is a lead, which tells how many elements follow, and the elements that follow. A list is cut into sequences in one way
only: from the front, as far as it goes (`exists_cut`, `prefix_of_prefix`). `After` is what a machine that counts the elements still
to come has to find.
-/

namespace GameServer.Lib

/-- The leads with the number of elements that follow, and the elements that may. -/
structure Leads (α : Type) where
  more : α → Option Nat
  inner : α → Bool

namespace Leads

variable {α : Type} {code : Leads α} {b lead : α} {s rest x y : List α} {xs zs : List (List α)} {n : Nat}

inductive Shaped (code : Leads α) : List α → Prop where
  | mk {lead : α} {tail : List α} (more : code.more lead = some tail.length) (inner : ∀ b ∈ tail, code.inner b) :
      Shaped code (lead :: tail)

instance decidableShaped : ∀ x, Decidable (code.Shaped x)
  | [] => .isFalse (by rintro ⟨⟩)
  | lead :: tail =>
    if shaped : code.more lead = some tail.length ∧ tail.all code.inner = true then
      .isTrue (.mk shaped.1 (List.all_eq_true.1 shaped.2))
    else .isFalse (by rintro ⟨more, inner⟩; exact shaped ⟨more, List.all_eq_true.2 inner⟩)

/-- A list of sequences. -/
def Concatenation (code : Leads α) (s : List α) : Prop := ∃ xs : List (List α), (∀ x ∈ xs, code.Shaped x) ∧ s = xs.flatten

/-- So many elements that follow, and then sequences. -/
def After (code : Leads α) (n : Nat) (s : List α) : Prop :=
  ∃ tail rest, s = tail ++ rest ∧ tail.length = n ∧ (∀ b ∈ tail, code.inner b) ∧ code.Concatenation rest

/-- No sequence stands at the front. -/
inductive Stuck (code : Leads α) : List α → Prop where
  | nil : Stuck code []
  | stray {b : α} {rest : List α} (none' : code.more b = none) : Stuck code (b :: rest)
  | short {lead : α} {tail : List α} {n : Nat} (more : code.more lead = some n) (less : tail.length < n)
      (inner : ∀ b ∈ tail, code.inner b) : Stuck code (lead :: tail)
  | broken {lead b : α} {tail rest : List α} {n : Nat} (more : code.more lead = some n) (less : tail.length < n)
      (inner : ∀ b ∈ tail, code.inner b) (other : code.inner b = false) : Stuck code (lead :: (tail ++ b :: rest))

theorem concatenation_nil : code.Concatenation [] := ⟨[], fun _ mem => absurd mem List.not_mem_nil, rfl⟩

theorem Shaped.ne_nil (shaped : code.Shaped x) : x ≠ [] := by
  cases shaped
  exact List.cons_ne_nil _ _

section After

theorem after_zero : code.After 0 s ↔ code.Concatenation s := by
  constructor
  · rintro ⟨tail, rest, rfl, length, -, cut⟩
    rwa [List.length_eq_zero_iff.1 length, List.nil_append]
  · intro cut
    exact ⟨[], s, rfl, rfl, fun b mem => absurd mem List.not_mem_nil, cut⟩

theorem after_nil : code.After n [] ↔ n = 0 := by
  constructor
  · rintro ⟨tail, rest, same, length, -, -⟩
    rw [← length, (List.append_eq_nil_iff.1 same.symm).1, List.length_nil]
  · rintro rfl
    exact after_zero.2 concatenation_nil

theorem after_succ_cons : code.After (n + 1) (b :: s) ↔ code.inner b ∧ code.After n s := by
  constructor
  · rintro ⟨tail, rest, same, length, inner, cut⟩
    obtain ⟨c, tail, rfl⟩ := List.exists_cons_of_length_eq_add_one length
    obtain ⟨rfl, rfl⟩ := List.cons.inj same
    obtain ⟨here, inner⟩ := List.forall_mem_cons.1 inner
    exact ⟨here, tail, rest, rfl, Nat.succ.inj length, inner, cut⟩
  · rintro ⟨here, tail, rest, rfl, length, inner, cut⟩
    exact ⟨b :: tail, rest, rfl, congrArg (· + 1) length, List.forall_mem_cons.2 ⟨here, inner⟩, cut⟩

theorem concatenation_cons : code.Concatenation (b :: s) ↔ ∃ n, code.more b = some n ∧ code.After n s := by
  constructor
  · rintro ⟨xs, shaped, same⟩
    cases xs with
    | nil => cases same
    | cons x xs =>
      obtain ⟨here, others⟩ := List.forall_mem_cons.1 shaped
      cases here with
      | @mk lead tail more inner =>
        obtain ⟨rfl, rfl⟩ := List.cons.inj same
        exact ⟨tail.length, more, tail, xs.flatten, rfl, rfl, inner, xs, others, rfl⟩
  · rintro ⟨n, more, tail, rest, rfl, rfl, inner, xs, shaped, rfl⟩
    exact ⟨(b :: tail) :: xs, List.forall_mem_cons.2 ⟨.mk more inner, shaped⟩, rfl⟩

end After

section Cuts

/-- A list is sequences, as far as they go, and a rest that is stuck. -/
theorem exists_cut (code : Leads α) (s : List α) :
    ∃ (xs : List (List α)) (rest : List α), (∀ x ∈ xs, code.Shaped x) ∧ code.Stuck rest ∧ s = xs.flatten ++ rest := by
  have nothing : ∀ x ∈ ([] : List (List α)), code.Shaped x := fun _ mem => absurd mem List.not_mem_nil
  induction h : s.length using Nat.strong_induction_on generalizing s with
  | _ n ih =>
    cases s with
    | nil => exact ⟨[], [], nothing, .nil, rfl⟩
    | cons lead s =>
      rcases more : code.more lead with _ | n
      · exact ⟨[], lead :: s, nothing, .stray more, rfl⟩
      have inner : ∀ b ∈ s.takeWhile code.inner, code.inner b := fun b mem => List.mem_takeWhile_imp mem
      by_cases enough : n ≤ (s.takeWhile code.inner).length
      · have length : (s.take n).length = n := List.length_take_of_le (enough.trans (List.takeWhile_prefix _).length_le)
        have here : code.Shaped (lead :: s.take n) := by
          refine .mk (by rw [length, more]) fun b mem => inner b ?_
          have sub : s.take n <+: s.takeWhile code.inner :=
            List.prefix_of_prefix_length_le (List.take_prefix n s) (List.takeWhile_prefix _) (by rw [length]; exact enough)
          exact sub.subset mem
        obtain ⟨xs, rest, shaped, stuck, same⟩ := ih (s.drop n).length (by rw [← h, List.length_drop, List.length_cons]; omega) _ rfl
        refine ⟨(lead :: s.take n) :: xs, rest, List.forall_mem_cons.2 ⟨here, shaped⟩, stuck, ?_⟩
        rw [List.flatten_cons, List.append_assoc, ← same, List.cons_append, List.take_append_drop]
      · have less := not_le.1 enough
        refine ⟨[], lead :: s, nothing, ?_, rfl⟩
        rw [← List.takeWhile_append_dropWhile (p := code.inner) (l := s)]
        cases behind : s.dropWhile code.inner with
        | nil =>
          rw [List.append_nil]
          exact .short more less inner
        | cons b rest =>
          have other := List.head_dropWhile_not code.inner (by rw [behind]; exact List.cons_ne_nil _ _)
          simp only [behind, List.head_cons] at other
          exact .broken more less inner (by simpa using other)

/-- Two sequences at the front of one list are the same. -/
theorem Shaped.unique (first : code.Shaped x) (second : code.Shaped y) {r r' : List α} (same : x ++ r = y ++ r') : x = y ∧ r = r' := by
  cases first with
  | @mk lead tail more inner =>
    cases second with
    | @mk lead' tail' more' inner' =>
      rw [List.cons_append, List.cons_append] at same
      obtain ⟨rfl, behind⟩ := List.cons.inj same
      obtain ⟨rfl, rfl⟩ := List.append_inj behind (Option.some.inj (more.symm.trans more'))
      exact ⟨rfl, rfl⟩

/-- What is stuck does not begin with a sequence. -/
theorem Stuck.not_shaped (stuck : code.Stuck rest) (shaped : code.Shaped x) (r : List α) : rest ≠ x ++ r := by
  rintro rfl
  cases shaped with
  | @mk lead tail more inner =>
    rw [List.cons_append] at stuck
    generalize same : lead :: (tail ++ r) = s at stuck
    cases stuck with
    | nil => cases same
    | stray none' =>
      obtain ⟨rfl, -⟩ := List.cons.inj same
      rw [none'] at more
      cases more
    | @short _ tail' n more' less inner' =>
      obtain ⟨rfl, behind⟩ := List.cons.inj same
      rw [← behind] at less
      have length := Option.some.inj (more.symm.trans more')
      rw [List.length_append] at less
      omega
    | @broken _ b tail' rest n more' less inner' other =>
      obtain ⟨rfl, behind⟩ := List.cons.inj same
      have length := Option.some.inj (more.symm.trans more')
      -- the element that cannot follow would be one of the tail
      have mem : b ∈ tail := by
        have at_ : (tail ++ r)[tail'.length]? = some b := by rw [behind, List.getElem?_append_right le_rfl]; simp
        rw [List.getElem?_append_left (by omega)] at at_
        exact List.mem_of_getElem? at_
      rw [inner b mem] at other
      cases other

/-- Sequences at the front of a list are the first ones it is cut into. -/
theorem prefix_of_prefix (shaped : ∀ x ∈ xs, code.Shaped x) (cut : ∀ z ∈ zs, code.Shaped z) (stuck : code.Stuck rest)
    (front : xs.flatten <+: zs.flatten ++ rest) : xs <+: zs := by
  induction xs generalizing zs with
  | nil => exact List.nil_prefix
  | cons x xs ih =>
    obtain ⟨here, others⟩ := List.forall_mem_cons.1 shaped
    obtain ⟨r, same⟩ := front
    rw [List.flatten_cons, List.append_assoc] at same
    cases zs with
    | nil => exact absurd same.symm (stuck.not_shaped here _)
    | cons z zs =>
      obtain ⟨here', others'⟩ := List.forall_mem_cons.1 cut
      rw [List.flatten_cons, List.append_assoc] at same
      obtain ⟨rfl, behind⟩ := here.unique here' same
      exact List.cons_prefix_cons.2 ⟨rfl, ih others others' ⟨r, behind⟩⟩

/-- The same with fewer leads: sequences at the front are among the first ones that have such leads. -/
theorem prefix_takeWhile {narrow : Leads α} [DecidablePred narrow.Shaped] (fewer : ∀ x, narrow.Shaped x → code.Shaped x)
    (shaped : ∀ x ∈ xs, narrow.Shaped x) (cut : ∀ z ∈ zs, code.Shaped z) (stuck : code.Stuck rest)
    (front : xs.flatten <+: zs.flatten ++ rest) : xs <+: zs.takeWhile (narrow.Shaped ·) := by
  obtain ⟨others, rfl⟩ := prefix_of_prefix (fun x mem => fewer x (shaped x mem)) cut stuck front
  rw [List.takeWhile_append_of_pos fun x mem => decide_eq_true (shaped x mem)]
  exact List.prefix_append _ _

end Cuts

end Leads

end GameServer.Lib

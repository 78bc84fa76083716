import Mathlib.Data.List.Nodup
import Mathlib.Data.List.Sort
import Mathlib.Order.RelClasses

/-!
# The best of many

The `N` best members of a set, in their order, kept while members come one at a time and what is not among them is forgotten.
A member may be replaced by one that is no worse, and one that is not among the best may be dropped. Anything else could let a
forgotten one back in.
-/

namespace GameServer.Lib

variable {α : Type} {lt : α → α → Prop} {N : Nat} {l t front back : List α} {s s' : α → Prop} {a d old : α}

/-- `l` is the `N` best members of `s` in order, all of them when there are fewer. -/
structure Best (lt : α → α → Prop) (N : Nat) (l : List α) (s : α → Prop) : Prop where
  sorted : l.Pairwise lt
  sound : ∀ a ∈ l, s a
  short : l.length ≤ N
  rest : ∀ a, s a → a ∉ l → N ≤ l.length ∧ ∀ b ∈ l, lt b a

theorem best_nil : Best lt N [] (· ∈ []) := ⟨.nil, nofun, Nat.zero_le N, nofun⟩

theorem best_take (sorted : l.Pairwise lt) : Best lt N (l.take N) (· ∈ l) := by
  refine ⟨sorted.sublist (List.take_sublist N l), fun a mem => List.mem_of_mem_take mem, List.length_take_le N l, ?_⟩
  intro a mem out
  rw [← List.take_append_drop N l, List.pairwise_append] at sorted
  rw [← List.take_append_drop N l, List.mem_append] at mem
  have mem := mem.resolve_left out
  have long := List.length_pos_of_mem mem
  rw [List.length_drop] at long
  refine ⟨?_, fun b kept => sorted.2.2 b kept a mem⟩
  rw [List.length_take]
  omega

variable [IsStrictTotalOrder α lt]

theorem nodup_of_sorted (sorted : l.Pairwise lt) : l.Nodup := by
  apply sorted.imp
  rintro a b less rfl
  exact irrefl_of lt a less

/-- The best are determined by the set. -/
theorem Best.unique (first : Best lt N l s) (second : Best lt N t s) : l = t := by
  have inside : ∀ {l t : List α}, Best lt N l s → Best lt N t s → ∀ a ∈ l, a ∈ t := by
    intro l t first second a mem
    by_contra out
    obtain ⟨full, worse⟩ := second.rest a (first.sound a mem) out
    obtain ⟨b, memB, outB⟩ : ∃ b ∈ t, b ∉ l := by
      by_contra none'
      simp only [not_exists, not_and, not_not] at none'
      have more : (a :: t).Subperm l := by
        apply List.subperm_of_subset (List.nodup_cons.2 ⟨out, nodup_of_sorted second.sorted⟩)
        intro b memB
        rcases List.mem_cons.1 memB with rfl | memB
        · exact mem
        · exact none' b memB
      have length := more.length_le
      have short := first.short
      rw [List.length_cons] at length
      omega
    exact asymm_of lt (worse b memB) ((first.rest b (second.sound b memB) outB).2 a mem)
  have perm : l.Perm t := by
    rw [List.perm_ext_iff_of_nodup (nodup_of_sorted first.sorted) (nodup_of_sorted second.sorted)]
    exact fun a => ⟨inside first second a, inside second first a⟩
  exact perm.eq_of_pairwise (fun a b _ _ less more => absurd more (asymm_of lt less)) first.sorted second.sorted

/-- One of the best is replaced by one that is no worse. -/
theorem Best.replace (best : Best lt N (front ++ old :: back) s) (noWorse : ¬ lt old d) (sorted : t.Pairwise lt)
    (perm : t.Perm (front ++ d :: back)) (is : ∀ a, s' a ↔ a = d ∨ s a ∧ a ≠ old) : Best lt N t s' := by
  have once := nodup_of_sorted best.sorted
  rw [List.nodup_middle, List.nodup_cons] at once
  have mem : ∀ a, a ∈ t ↔ a = d ∨ a ∈ front ++ back := by
    intro a
    rw [perm.mem_iff, List.perm_middle.mem_iff, List.mem_cons]
  have listed : ∀ a, a ∈ front ++ old :: back ↔ a = old ∨ a ∈ front ++ back := by
    intro a
    rw [List.perm_middle.mem_iff, List.mem_cons]
  have length : t.length = (front ++ old :: back).length := by
    rw [perm.length_eq, List.length_append, List.length_append, List.length_cons, List.length_cons]
  refine ⟨sorted, ?_, length ▸ best.short, ?_⟩
  · intro a memA
    rw [is]
    rcases (mem a).1 memA with new | kept
    · exact .inl new
    · refine .inr ⟨best.sound a ((listed a).2 (.inr kept)), ?_⟩
      rintro rfl
      exact once.1 kept
  · intro a isA out
    rw [mem, not_or] at out
    obtain ⟨isA, ne⟩ := ((is a).1 isA).resolve_left out.1
    obtain ⟨full, worse⟩ := best.rest a isA fun memA => ((listed a).1 memA).elim ne out.2
    refine ⟨length ▸ full, fun b memB => ?_⟩
    rcases (mem b).1 memB with rfl | kept
    · have less := worse old ((listed old).2 (.inl rfl))
      rcases trichotomous_of lt b old with better | same | _
      · exact IsTrans.trans _ _ _ better less
      · exact same ▸ less
      · contradiction
    · exact worse b ((listed b).2 (.inr kept))

/-- A new one comes to the best, of which none is lost. -/
theorem Best.push (best : Best lt N l s) (sorted : t.Pairwise lt) (perm : t.Perm (l ++ [d])) (keeps : ∀ a ∈ l, s' a) (new : s' d)
    (is : ∀ a, s' a → a = d ∨ s a) : Best lt N (t.take N) s' := by
  have mem : ∀ a, a ∈ t ↔ a ∈ l ∨ a = d := by
    intro a
    rw [perm.mem_iff, List.mem_append, List.mem_singleton]
  have take := best_take (N := N) sorted
  refine ⟨take.sorted, ?_, take.short, ?_⟩
  · intro a memA
    rcases (mem a).1 (take.sound a memA) with kept | rfl
    · exact keeps a kept
    · exact new
  · intro a isA out
    by_cases listed : a ∈ t
    · exact take.rest a listed out
    · rw [mem, not_or] at listed
      obtain ⟨full, worse⟩ := best.rest a ((is a isA).resolve_left listed.2) listed.1
      have length := perm.length_eq
      rw [List.length_append, List.length_singleton] at length
      refine ⟨by rw [List.length_take]; omega, fun b memB => ?_⟩
      rcases (mem b).1 (take.sound b memB) with kept | rfl
      · exact worse b kept
      · -- the new one is in and another one went out
        obtain ⟨e, dropped⟩ : ∃ e, e ∈ t.drop N := List.exists_mem_of_length_pos (by rw [List.length_drop]; omega)
        rw [← List.take_append_drop N t, List.pairwise_append] at sorted
        have less := sorted.2.2 b memB e dropped
        rcases (mem e).1 (List.mem_of_mem_drop dropped) with kept | rfl
        · exact IsTrans.trans _ _ _ less (worse e kept)
        · exact absurd less (irrefl_of lt e)

end GameServer.Lib

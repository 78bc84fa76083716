import Mathlib.Data.List.TakeWhile
import Mathlib.Order.Lattice

/-!
# Moving an element through a sorted list

An element gets a new key and moves past its neighbours, down the list while they are
greater and then up while they are smaller. The list is given as the elements before it,
the nearest first, and those after it. `sweep` says that this sorts the list, and which
elements were passed: on a sorted list the elements with a property that sinks to smaller
ones are a prefix (`mem_takeWhile_of_sinks`).
-/

namespace GameServer.Lib

variable {α : Type} {l : List α} {c d n : α}

section Prefix

variable {p : α → Bool}

/-- An element with a property that every element before it has too is in the prefix with
that property. -/
theorem mem_takeWhile_of_sinks (sinks : l.Pairwise fun c d => p d = true → p c = true) (mem : c ∈ l)
    (holds : p c = true) : c ∈ l.takeWhile p := by
  induction l with
  | nil => cases mem
  | cons d l ih =>
    obtain ⟨first, sinks⟩ := List.pairwise_cons.1 sinks
    rcases List.mem_cons.1 mem with rfl | mem
    · rw [List.takeWhile_cons_of_pos holds]
      exact List.mem_cons_self
    · rw [List.takeWhile_cons_of_pos (first c mem holds)]
      exact List.mem_cons_of_mem d (ih sinks mem)

/-- After the prefix no element has the property. -/
theorem not_of_mem_dropWhile (sinks : l.Pairwise fun c d => p d = true → p c = true) (mem : c ∈ l.dropWhile p) :
    ¬ p c = true := by
  induction l with
  | nil => cases mem
  | cons d l ih =>
    obtain ⟨first, sinks⟩ := List.pairwise_cons.1 sinks
    by_cases holds : p d = true
    · rw [List.dropWhile_cons_of_pos holds] at mem
      exact ih sinks mem
    · rw [List.dropWhile_cons_of_neg holds] at mem
      rcases List.mem_cons.1 mem with rfl | mem
      · exact holds
      · exact fun holds' => holds (first c mem holds')

end Prefix

/-- `c` stands before `d` in the list. -/
def Before (l : List α) (c d : α) : Prop := List.Sublist [c, d] l

section Before

theorem Before.rel {R : α → α → Prop} (before : Before l c d) (pairwise : l.Pairwise R) : R c d :=
  List.pairwise_iff_forall_sublist.1 pairwise before

theorem before_of_mem_left {as bs : List α} (mem : c ∈ as) : Before (as ++ d :: bs) c d := by
  have first : List.Sublist [c] as := List.singleton_sublist.2 mem
  exact first.append (List.singleton_sublist.2 List.mem_cons_self)

theorem before_cons (mem : d ∈ l) : Before (c :: l) c d := (List.singleton_sublist.2 mem).cons_cons c

theorem before_of_mem_right {as bs : List α} (mem : d ∈ bs) : Before (as ++ c :: bs) c d :=
  (before_cons mem).trans (List.sublist_append_right as _)

theorem before_or (memc : c ∈ l) (memd : d ∈ l) (ne : c ≠ d) : Before l c d ∨ Before l d c := by
  obtain ⟨as, bs, rfl⟩ := List.append_of_mem memd
  rcases List.mem_append.1 memc with mem | mem
  · exact .inl (before_of_mem_left mem)
  · exact .inr (before_of_mem_right ((List.mem_cons.1 mem).resolve_left ne))

theorem Before.mem_tail (before : Before (n :: l) c d) : d ∈ l := by
  rcases List.sublist_cons_iff.1 before with both | ⟨r, same, tail⟩
  · exact both.subset (List.mem_cons_of_mem c List.mem_cons_self)
  · rw [(List.cons.inj same).2.symm] at tail
    exact tail.subset List.mem_cons_self

/-- What stands before something in two lists stands in the first, or both stand in the second. -/
theorem Before.append {as bs : List α} (before : Before (as ++ bs) c d) : c ∈ as ∨ Before bs c d := by
  obtain ⟨first, rest, split, first', rest'⟩ := List.sublist_append_iff.1 before
  rcases first with _ | ⟨b, first⟩
  · rw [List.nil_append] at split
    rw [← split] at rest'
    exact .inr rest'
  · rw [(List.cons.inj split).1]
    exact .inl (first'.subset List.mem_cons_self)

theorem Before.mem_left {as bs : List α} (before : Before (as ++ d :: bs) c d) (nodup : (as ++ d :: bs).Nodup) :
    c ∈ as := by
  have once : d ∉ bs := (List.nodup_cons.1 (List.nodup_append.1 nodup).2.1).1
  exact before.append.resolve_right fun behind => once behind.mem_tail

theorem Before.mem_right {as bs : List α} (before : Before (as ++ c :: bs) c d) (nodup : (as ++ c :: bs).Nodup) :
    d ∈ bs := by
  rcases before.append with mem | behind
  · exact absurd rfl ((List.nodup_append.1 nodup).2.2 c mem c List.mem_cons_self)
  · exact behind.mem_tail

theorem Before.filter {p : α → Bool} (before : Before l c d) (left : p c = true) (right : p d = true) :
    Before (l.filter p) c d := by
  have both := List.Sublist.filter p before
  simp only [List.filter_cons, left, right, if_true, List.filter_nil] at both
  exact both

theorem Before.of_filter {p : α → Bool} (before : Before (l.filter p) c d) : Before l c d :=
  before.trans List.filter_sublist

end Before

section Sweep

variable {K : Type} [LinearOrder K] {key : α → K} {v : K} {prev next : List α}

/-- The neighbours passed on the way down. -/
def passedDown (key : α → K) (v : K) (prev : List α) : List α := prev.takeWhile fun c => v < key c

/-- The neighbours passed on the way up. -/
def passedUp (key : α → K) (v : K) (next : List α) : List α := next.takeWhile fun c => key c < v

/-- What is before the element in the end, the nearest first, and what is after it. -/
structure Swept (key : α → K) (v : K) (prev next prev' next' : List α) : Prop where
  same : prev'.reverse ++ next' = prev.reverse ++ next
  low : ∀ c ∈ prev', key c ≤ v
  high : ∀ c ∈ next', v ≤ key c
  down : ∀ c ∈ prev, v < key c → c ∈ passedDown key v prev
  up : ∀ c ∈ next, key c < v → c ∈ passedUp key v ((passedDown key v prev).reverse ++ next)
  rest : ∀ c ∈ next, v ≤ key c → c ∈ next'

/-- Down the list and then up it: the element is in its place, and it has passed all that
stood on the wrong side. -/
theorem sweep (key : α → K) (v : K) (sorted : (prev.reverse ++ next).Pairwise fun c d => key c ≤ key d) :
    Swept key v prev next
      ((passedUp key v ((passedDown key v prev).reverse ++ next)).reverse ++ prev.dropWhile fun c => v < key c)
      (((passedDown key v prev).reverse ++ next).dropWhile fun c => key c < v) := by
  obtain ⟨sortedPrev, sortedNext, across⟩ := List.pairwise_append.1 sorted
  have downs : prev.Pairwise fun c d => decide (v < key d) = true → decide (v < key c) = true := by
    rw [List.pairwise_reverse] at sortedPrev
    refine sortedPrev.imp ?_
    intro c d le high
    simp only [decide_eq_true_eq] at high ⊢
    exact lt_of_lt_of_le high le
  have part : List.Sublist ((passedDown key v prev).reverse ++ next) (prev.reverse ++ next) :=
    (List.takeWhile_sublist _).reverse.append (List.Sublist.refl next)
  have sorted' := sorted.sublist part
  have ups : ((passedDown key v prev).reverse ++ next).Pairwise
      fun c d => decide (key d < v) = true → decide (key c < v) = true := by
    refine sorted'.imp ?_
    intro c d le low
    simp only [decide_eq_true_eq] at low ⊢
    exact lt_of_le_of_lt le low
  refine ⟨?_, ?_, ?_, ?_, ?_, ?_⟩
  · rw [List.reverse_append, List.reverse_reverse, List.append_assoc, passedUp, List.takeWhile_append_dropWhile,
      ← List.append_assoc, ← List.reverse_append, passedDown, List.takeWhile_append_dropWhile]
  · intro c mem
    rcases List.mem_append.1 mem with passed | stayed
    · have low := List.mem_takeWhile_imp (List.mem_reverse.1 passed)
      exact le_of_lt (by simpa using low)
    · have low := not_of_mem_dropWhile downs stayed
      simpa using low
  · intro c mem
    have high := not_of_mem_dropWhile ups mem
    simpa using high
  · intro c mem high
    exact mem_takeWhile_of_sinks downs mem (by simpa using high)
  · intro c mem low
    exact mem_takeWhile_of_sinks ups (List.mem_append_right _ mem) (by simpa using low)
  · intro c mem high
    have all : c ∈ (passedDown key v prev).reverse ++ next := List.mem_append_right _ mem
    rw [← List.takeWhile_append_dropWhile (p := fun c => decide (key c < v)) (l := (passedDown key v prev).reverse ++ next)] at all
    rcases List.mem_append.1 all with passed | stayed
    · have low := List.mem_takeWhile_imp passed
      exact absurd (by simpa using low) (not_lt.2 high)
    · exact stayed

end Sweep

end GameServer.Lib

import GameServer.Lib.Sorting
import Mathlib.Data.List.Nodup
import Mathlib.Data.List.Range
import Mathlib.Logic.Equiv.Basic
import Mathlib.Order.Lattice

/-!
# Binary heaps in arrays

The first `n` places of an array `a` are a heap on `key` if no element is smaller than the one in its parent's place.
The loops that repair a heap move a hole up or down and put an element into it at the end. Here the element is in the
hole all the time, so that each move is a swap of two neighbours: `Rising` and `Sinking` are what holds before each
move, and `move` and `done` are the two ways on. What is held does not change, as a swap permutes it.
-/

namespace GameServer.Lib.Heap

def parent (i : Nat) : Nat := (i - 1) / 2

theorem parent_lt {i : Nat} (pos : 0 < i) : parent i < i := by
  unfold parent
  omega

/-- What the array holds. -/
def elements {α : Type} (a : Nat → α) (n : Nat) : List α := (List.range n).map a

section Elements

variable {α : Type} {a : Nat → α} {n m i j : Nat} {x : α}

theorem mem_elements : x ∈ elements a n ↔ ∃ i < n, a i = x := by
  simp [elements]

theorem elements_congr {b : Nat → α} (same : ∀ i < n, a i = b i) : elements a n = elements b n :=
  List.map_congr_left fun i mem => same i (List.mem_range.1 mem)

theorem elements_succ : elements a (n + 1) = elements a n ++ [a n] := by
  simp [elements, List.range_succ]

theorem elements_swap (lt : i < n) (lt' : j < n) : (elements (a ∘ Equiv.swap i j) n).Perm (elements a n) := by
  have places : ((List.range n).map (Equiv.swap i j)).Perm (List.range n) := by
    rw [List.perm_ext_iff_of_nodup (List.nodup_range.map (Equiv.injective _)) List.nodup_range]
    intro k
    simp only [List.mem_map, List.mem_range]
    constructor
    · rintro ⟨l, less, rfl⟩
      rw [Equiv.swap_apply_def]
      split_ifs <;> assumption
    · intro less
      refine ⟨Equiv.swap i j k, ?_, Equiv.swap_apply_self i j k⟩
      rw [Equiv.swap_apply_def]
      split_ifs <;> assumption
  have mapped := places.map a
  rwa [List.map_map] at mapped

theorem elements_push : elements (Function.update a n x) (n + 1) = elements a n ++ [x] := by
  rw [elements_succ, Function.update_self, elements_congr fun i lt => Function.update_of_ne lt.ne x a]

/-- Taking the root away by putting the last element in its place. -/
theorem elements_pop : (a 0 :: elements (Function.update a 0 (a n)) n).Perm (elements a (n + 1)) := by
  rw [elements_succ]
  cases n with
  | zero => exact .refl _
  | succ n =>
    have others : ∀ b : Nat → α, elements b (n + 1) = b 0 :: (List.range n).map (b ∘ Nat.succ) := fun b => by
      rw [elements, List.range_succ_eq_map, List.map_cons, List.map_map]
    rw [others, others, Function.update_self]
    have same : (List.range n).map (Function.update a 0 (a (n + 1)) ∘ Nat.succ) = (List.range n).map (a ∘ Nat.succ) :=
      List.map_congr_left fun i _ => Function.update_of_ne (Nat.succ_ne_zero i) _ _
    rw [same, List.cons_append]
    exact (List.perm_append_singleton _ _).symm.cons _

/-- Moving a neighbour into the hole moves the hole. -/
theorem update_swap (other : i ≠ j) : Function.update (Function.update a j (a i)) i x = Function.update a j x ∘ Equiv.swap j i := by
  funext k
  rw [Function.comp_apply, Equiv.swap_apply_def]
  split_ifs with at_j at_i
  · subst at_j
    rw [Function.update_of_ne other.symm, Function.update_self, Function.update_of_ne other]
  · subst at_i
    rw [Function.update_self, Function.update_self]
  · rw [Function.update_of_ne at_i, Function.update_of_ne at_j, Function.update_of_ne at_j]

end Elements

variable {α K : Type} [LinearOrder K] {key key' : α → K} {a : Nat → α} {n m i j c : Nat} {x : α}

def Ordered (key : α → K) (a : Nat → α) (n : Nat) : Prop := ∀ i, 0 < i → i < n → key (a (parent i)) ≤ key (a i)

theorem Ordered.root_le (ordered : Ordered key a n) (lt : i < n) : key (a 0) ≤ key (a i) := by
  induction i using Nat.strongRecOn with
  | ind i ih =>
    rcases Nat.eq_zero_or_pos i with rfl | pos
    · exact le_rfl
    · have up := parent_lt pos
      exact (ih (parent i) up (up.trans lt)).trans (ordered i pos lt)

/-- In order but for the element at `j`, which may be smaller than its parent. -/
structure Rising (key : α → K) (a : Nat → α) (n j : Nat) : Prop where
  others : ∀ i, 0 < i → i < n → i ≠ j → key (a (parent i)) ≤ key (a i)
  bridge : ∀ i, 0 < i → i < n → parent i = j → 0 < j → key (a (parent j)) ≤ key (a i)

/-- In order but for the element at `j`, which may be greater than its children. -/
structure Sinking (key : α → K) (a : Nat → α) (n j : Nat) : Prop where
  others : ∀ i, 0 < i → i < n → parent i ≠ j → key (a (parent i)) ≤ key (a i)
  bridge : ∀ i, 0 < i → i < n → parent i = j → 0 < j → key (a (parent j)) ≤ key (a i)

theorem Ordered.push (ordered : Ordered key a n) (x : α) : Rising key (Function.update a n x) (n + 1) n where
  others i pos lt other := by
    have less : i < n := by omega
    have up := parent_lt pos
    rw [Function.update_of_ne other, Function.update_of_ne (by omega)]
    exact ordered i pos less
  bridge i pos lt up _ := by
    have up' := parent_lt pos
    omega

/-- The root may be replaced, and its key may have changed before. -/
theorem Ordered.replace_root (ordered : Ordered key a n) (le : m ≤ n) (same : ∀ i, 0 < i → i < n → key' (a i) = key (a i)) (x : α) :
    Sinking key' (Function.update a 0 x) m 0 where
  others i pos lt below := by
    have up := parent_lt pos
    have less : i < n := by omega
    rw [Function.update_of_ne below, Function.update_of_ne pos.ne', same i pos less,
      same (parent i) (Nat.pos_of_ne_zero below) (up.trans less)]
    exact ordered i pos less
  bridge _ _ _ _ pos := absurd pos (lt_irrefl 0)

theorem Rising.done (rising : Rising key a n j) (stop : 0 < j → key (a (parent j)) ≤ key (a j)) : Ordered key a n := by
  intro i pos lt
  by_cases here : i = j
  · subst here
    exact stop pos
  · exact rising.others i pos lt here

theorem Rising.move (rising : Rising key a n j) (pos : 0 < j) (lt : j < n) (less : key (a j) < key (a (parent j))) :
    Rising key (a ∘ Equiv.swap j (parent j)) n (parent j) := by
  have up := parent_lt pos
  have at_j : (a ∘ Equiv.swap j (parent j)) j = a (parent j) := by simp
  have at_p : (a ∘ Equiv.swap j (parent j)) (parent j) = a j := by simp
  have else' : ∀ i, i ≠ j → i ≠ parent j → (a ∘ Equiv.swap j (parent j)) i = a i := fun i other other' => by
    rw [Function.comp_apply, Equiv.swap_apply_of_ne_of_ne other other']
  constructor
  · intro i posI ltI other
    have upI := parent_lt posI
    by_cases here : i = j
    · subst here
      rw [at_j, at_p]
      exact less.le
    · rw [else' i here other]
      by_cases below : parent i = j
      · rw [below, at_j]
        exact rising.bridge i posI ltI below pos
      by_cases beside : parent i = parent j
      · have before := rising.others i posI ltI here
        rw [beside] at before ⊢
        rw [at_p]
        exact less.le.trans before
      · rw [else' _ below beside]
        exact rising.others i posI ltI here
  · intro i posI ltI beside posP
    have upP := parent_lt posP
    have above := rising.others (parent j) posP (up.trans lt) up.ne
    have upI := parent_lt posI
    rw [else' _ (by omega) upP.ne]
    by_cases here : i = j
    · subst here
      rw [at_j]
      exact above
    · rw [else' i here (by omega)]
      have before := rising.others i posI ltI here
      rw [beside] at before
      exact above.trans before

theorem Sinking.done (sinking : Sinking key a n j) (stop : ∀ i, 0 < i → i < n → parent i = j → key (a j) ≤ key (a i)) :
    Ordered key a n := by
  intro i pos lt
  by_cases below : parent i = j
  · rw [below]
    exact stop i pos lt below
  · exact sinking.others i pos lt below

theorem Sinking.move (sinking : Sinking key a n j) (pos : 0 < c) (lt : c < n) (child : parent c = j)
    (least : ∀ i, 0 < i → i < n → parent i = j → key (a c) ≤ key (a i)) (less : key (a c) < key (a j)) :
    Sinking key (a ∘ Equiv.swap j c) n c := by
  have up := parent_lt pos
  have at_j : (a ∘ Equiv.swap j c) j = a c := by simp
  have at_c : (a ∘ Equiv.swap j c) c = a j := by simp
  have else' : ∀ i, i ≠ j → i ≠ c → (a ∘ Equiv.swap j c) i = a i := fun i other other' => by
    rw [Function.comp_apply, Equiv.swap_apply_of_ne_of_ne other other']
  constructor
  · intro i posI ltI below
    have upI := parent_lt posI
    by_cases here : i = c
    · subst here
      rw [child, at_j, at_c]
      exact less.le
    by_cases hole : i = j
    · subst hole
      rw [at_j, else' (parent i) upI.ne (by omega)]
      exact sinking.bridge c pos lt child posI
    · rw [else' i hole here]
      by_cases beside : parent i = j
      · rw [beside, at_j]
        exact least i posI ltI beside
      · rw [else' _ beside below]
        exact sinking.others i posI ltI beside
  · intro i posI ltI below _
    have upI := parent_lt posI
    rw [child, at_j, else' i (by omega) (by omega)]
    have before := sinking.others i posI ltI (by omega)
    rwa [below] at before

end GameServer.Lib.Heap

namespace GameServer.Lib

/-- A heap of the standard library: no element comes before one of its children. -/
def IsHeap {α : Type} (lt : α → α → Prop) (l : List α) : Prop :=
  ∀ i x y, 0 < i → l[Heap.parent i]? = some x → l[i]? = some y → ¬ lt x y

/-- What the standard says of `std::push_heap`, which lets the last element rise, and `std::pop_heap`, which takes the
root to the end. -/
structure StdHeap where
  push_heap : {α : Type} → (lt : α → α → Prop) → [DecidableRel lt] → List α → List α
  pop_heap : {α : Type} → (lt : α → α → Prop) → [DecidableRel lt] → List α → List α
  push_perm : ∀ {α : Type} (lt : α → α → Prop) [DecidableRel lt] (l : List α), (push_heap lt l).Perm l
  pushed : ∀ {α : Type} (lt : α → α → Prop) [DecidableRel lt] [IsStrictWeakOrder α lt] (l : List α) (x : α), IsHeap lt l →
    IsHeap lt (push_heap lt (l ++ [x]))
  pop_perm : ∀ {α : Type} (lt : α → α → Prop) [DecidableRel lt] (l : List α), (pop_heap lt l).Perm l
  popped : ∀ {α : Type} (lt : α → α → Prop) [DecidableRel lt] [IsStrictWeakOrder α lt] (x : α) (l : List α), IsHeap lt (x :: l) →
    ∃ rest, pop_heap lt (x :: l) = rest ++ [x] ∧ IsHeap lt rest

section StdHeaps

variable {α K : Type} {lt : α → α → Prop} {l : List α} {x : α}

theorem isHeap_nil : IsHeap lt [] := nofun

/-- Only what is in the list is compared. -/
theorem IsHeap.congr {lt' : α → α → Prop} (heap : IsHeap lt l) (same : ∀ x ∈ l, ∀ y ∈ l, lt' x y → lt x y) : IsHeap lt' l :=
  fun i x y pos above here before =>
    heap i x y pos above here (same x (List.mem_of_getElem? above) y (List.mem_of_getElem? here) before)

theorem isHeap_of_sorted (sorted : l.Pairwise fun x y => ¬ lt x y) : IsHeap lt l := by
  intro i x y pos above here
  obtain ⟨bound, rfl⟩ := List.getElem?_eq_some_iff.1 above
  obtain ⟨bound', rfl⟩ := List.getElem?_eq_some_iff.1 here
  exact List.pairwise_iff_getElem.1 sorted _ _ bound bound' (Heap.parent_lt pos)

theorem weak_of_key [LinearOrder K] (key : α → K) : IsStrictWeakOrder α fun x y => key y < key x where
  irrefl _ := lt_irrefl _
  trans _ _ _ first second := second.trans first
  incomp_trans _ _ _ first second :=
    ⟨not_lt.2 ((not_lt.1 first.1).trans (not_lt.1 second.1)), not_lt.2 ((not_lt.1 second.2).trans (not_lt.1 first.2))⟩

/-- The root has the smallest key, where the greatest element is one with the smallest key. -/
theorem IsHeap.root_le [LinearOrder K] {key : α → K} (heap : IsHeap (fun x y => key y < key x) (x :: l)) :
    ∀ y ∈ x :: l, key x ≤ key y := by
  intro y mem
  obtain ⟨i, bound, rfl⟩ := List.getElem_of_mem mem
  have here : ∀ i (h : i < (x :: l).length), (x :: l).getD i x = (x :: l)[i] := fun i h => by
    rw [List.getD_eq_getElem?_getD, List.getElem?_eq_getElem h, Option.getD_some]
  have ordered : Heap.Ordered key (fun i => (x :: l).getD i x) (x :: l).length := by
    intro i pos bound
    have up := (Heap.parent_lt pos).trans bound
    show key ((x :: l).getD (Heap.parent i) x) ≤ key ((x :: l).getD i x)
    rw [here i bound, here _ up]
    exact not_lt.1 (heap i _ _ pos (List.getElem?_eq_getElem up) (List.getElem?_eq_getElem bound))
  exact (ordered.root_le bound).trans_eq (congrArg key (here i bound))

end StdHeaps

/-- A sorted range is a heap. -/
def StdHeap.ofSort (S : StdSort) : StdHeap where
  push_heap lt _ l := S.sort (fun x y => lt y x) l
  pop_heap lt _ l := S.sort (fun x y => lt y x) l.tail ++ l.take 1
  push_perm lt _ l := S.perm _ l
  pushed lt _ weak l x _ := by
    have swapped : IsStrictWeakOrder _ fun x y => lt y x := inferInstanceAs (IsStrictWeakOrder _ (Function.swap lt))
    exact isHeap_of_sorted (S.sorted (fun x y => lt y x) (l ++ [x]))
  pop_perm lt _ l := by
    have sorted := S.perm (fun x y => lt y x) l.tail
    cases l with
    | nil => simpa using sorted
    | cons x l => exact (sorted.append_right [x]).trans (List.perm_append_singleton x l)
  popped lt _ weak x l _ := by
    have swapped : IsStrictWeakOrder _ fun x y => lt y x := inferInstanceAs (IsStrictWeakOrder _ (Function.swap lt))
    exact ⟨S.sort (fun x y => lt y x) l, rfl, isHeap_of_sorted (S.sorted (fun x y => lt y x) l)⟩

end GameServer.Lib

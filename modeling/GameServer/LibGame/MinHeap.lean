import GameServer.Lib.Heap
import Mathlib.Algebra.Order.Ring.Rat

/-!
# The timer heap of libgame

`MinHeap`, an array of pointers to timers in the order of a binary heap on `getRelativeTime()`, with its two sifting loops.
A loop keeps the element it moves in `temp` and writes it into the hole at the end. In `siftUp` the variable `i` is
`(j - 1) / 2` before every pass, and in `siftDown` the variable `j` is `2 * i + 1`, so that each loop has one variable here.

What a pointer's timer says of its time is the argument `getRelativeTime`: it can change while the pointer is in the heap.
`Insert` and `RemoveMin` permute what they are given whatever the times are, and keep the order as long as only the root's
time has changed.
-/

namespace GameServer.LibGame

open GameServer.Lib

def DefaultSize : Nat := 1000000

structure MinHeap where
  heap : Nat → Nat
  currentSize : Nat
  maxHeapSize : Nat

namespace MinHeap

/-- The constructor; `memory` is what the array holds when it has been allocated. -/
def new (sz : Nat) (memory : Nat → Nat) : MinHeap := ⟨memory, 0, if sz > DefaultSize then sz else DefaultSize⟩

section Loops

variable (getRelativeTime : Nat → ℚ)

def siftDownLoop (m : Int) (temp : Nat) (heap : Nat → Nat) (i : Nat) : Nat → Nat :=
  if _inside : (2 * i + 1 : Int) ≤ m then
    let j := if (2 * i + 1 : Int) < m ∧ getRelativeTime (heap (2 * i + 1)) > getRelativeTime (heap (2 * i + 2)) then 2 * i + 2 else 2 * i + 1
    if getRelativeTime (heap j) ≥ getRelativeTime temp then Function.update heap i temp
    else siftDownLoop m temp (Function.update heap i (heap j)) j
  else Function.update heap i temp
termination_by (m - i).toNat
decreasing_by split <;> omega

def siftDown (heap : Nat → Nat) (start : Nat) (m : Int) : Nat → Nat := siftDownLoop getRelativeTime m (heap start) heap start

def siftUpLoop (temp : Nat) (heap : Nat → Nat) (j : Nat) : Nat → Nat :=
  if _inside : 0 < j then
    if getRelativeTime temp ≥ getRelativeTime (heap ((j - 1) / 2)) then Function.update heap j temp
    else siftUpLoop temp (Function.update heap j (heap ((j - 1) / 2))) ((j - 1) / 2)
  else Function.update heap j temp
termination_by j
decreasing_by omega

def siftUp (heap : Nat → Nat) (start : Nat) : Nat → Nat := siftUpLoop getRelativeTime (heap start) heap start

def Insert (h : MinHeap) (x : Nat) : MinHeap × Bool :=
  if h.currentSize = h.maxHeapSize then (h, false)
  else ({ h with heap := siftUp getRelativeTime (Function.update h.heap h.currentSize x) h.currentSize,
                 currentSize := h.currentSize + 1 }, true)

def RemoveMin (h : MinHeap) : MinHeap × Bool :=
  if h.currentSize = 0 then (h, false)
  else ({ h with heap := siftDown getRelativeTime (Function.update h.heap 0 (h.heap (h.currentSize - 1))) 0
                   ((h.currentSize - 1 : Nat) - 1 : Int),
                 currentSize := h.currentSize - 1 }, true)

end Loops

def FindMin (h : MinHeap) : Option Nat := if h.currentSize = 0 then none else some (h.heap 0)

def elements (h : MinHeap) : List Nat := Heap.elements h.heap h.currentSize

/-- The order of the array. -/
def Ordered (h : MinHeap) (getRelativeTime : Nat → ℚ) : Prop := Heap.Ordered getRelativeTime h.heap h.currentSize

section Loops

variable {time time' : Nat → ℚ} {heap : Nat → Nat} {temp n i j x : Nat}

theorem siftUpLoop_perm (lt : j < n) :
    (Heap.elements (siftUpLoop time temp heap j) n).Perm (Heap.elements (Function.update heap j temp) n) := by
  induction heap, j using siftUpLoop.induct time temp with
  | case1 heap j pos stop =>
    rw [siftUpLoop, dif_pos pos, if_pos stop]
  | case2 heap j pos less ih =>
    rw [siftUpLoop, dif_pos pos, if_neg less]
    have up : (j - 1) / 2 < j := Heap.parent_lt pos
    apply (ih (up.trans lt)).trans
    rw [Heap.update_swap up.ne]
    exact Heap.elements_swap lt (up.trans lt)
  | case3 heap j stop =>
    rw [siftUpLoop, dif_neg stop]

theorem siftUpLoop_ordered (lt : j < n) (rising : Heap.Rising time (Function.update heap j temp) n j) :
    Heap.Ordered time (siftUpLoop time temp heap j) n := by
  induction heap, j using siftUpLoop.induct time temp with
  | case1 heap j pos stop =>
    rw [siftUpLoop, dif_pos pos, if_pos stop]
    have up : Heap.parent j < j := Heap.parent_lt pos
    apply rising.done
    intro _
    rw [Function.update_self, Function.update_of_ne up.ne]
    exact stop
  | case2 heap j pos less ih =>
    rw [siftUpLoop, dif_pos pos, if_neg less]
    have up : Heap.parent j < j := Heap.parent_lt pos
    apply ih (up.trans lt)
    rw [Heap.update_swap (show (j - 1) / 2 ≠ j from up.ne)]
    apply rising.move pos lt
    rw [Function.update_self, Function.update_of_ne up.ne]
    exact not_le.1 less
  | case3 heap j stop =>
    rw [siftUpLoop, dif_neg stop]
    exact rising.done fun pos => absurd pos stop

/-- An element that is not smaller than the root does not get past it. -/
theorem siftUpLoop_root (pos : 0 < j) (least : time (heap 0) ≤ time temp) : siftUpLoop time temp heap j 0 = heap 0 := by
  induction heap, j using siftUpLoop.induct time temp with
  | case1 heap j inside stop =>
    rw [siftUpLoop, dif_pos inside, if_pos stop, Function.update_of_ne pos.ne]
  | case2 heap j inside less ih =>
    rw [siftUpLoop, dif_pos inside, if_neg less]
    have root : Function.update heap j (heap ((j - 1) / 2)) 0 = heap 0 := Function.update_of_ne pos.ne _ _
    rw [ih ?_ (root ▸ least), root]
    by_contra zero
    have zero : (j - 1) / 2 = 0 := by omega
    rw [zero] at less
    exact less least
  | case3 heap j stop => exact absurd pos stop

/-- The child that `siftDown` compares with: it is there, and no child is smaller. -/
theorem smaller_child (time : Nat → ℚ) (heap : Nat → Nat) (inside : (2 * i + 1 : Int) ≤ (n : Int) - 1)
    (chosen : (if (2 * i + 1 : Int) < (n : Int) - 1 ∧ time (heap (2 * i + 1)) > time (heap (2 * i + 2)) then 2 * i + 2 else 2 * i + 1) = j) :
    0 < j ∧ j < n ∧ Heap.parent j = i ∧ ∀ k, 0 < k → k < n → Heap.parent k = i → time (heap j) ≤ time (heap k) := by
  have children : ∀ k, 0 < k → Heap.parent k = i → k = 2 * i + 1 ∨ k = 2 * i + 2 := fun k pos up => by
    unfold Heap.parent at up
    omega
  split_ifs at chosen with right
  · subst chosen
    obtain ⟨bound, less⟩ := right
    refine ⟨by omega, by omega, by unfold Heap.parent; omega, fun k pos lt up => ?_⟩
    rcases children k pos up with rfl | rfl
    · exact (gt_iff_lt.1 less).le
    · exact le_rfl
  · subst chosen
    refine ⟨by omega, by omega, by unfold Heap.parent; omega, fun k pos lt up => ?_⟩
    rcases children k pos up with rfl | rfl
    · exact le_rfl
    · have bound : (2 * i + 1 : Int) < (n : Int) - 1 := by omega
      exact not_lt.1 fun less => right ⟨bound, less⟩

theorem siftDownLoop_perm (lt : i < n) :
    (Heap.elements (siftDownLoop time ((n : Int) - 1) temp heap i) n).Perm (Heap.elements (Function.update heap i temp) n) := by
  induction heap, i using siftDownLoop.induct time ((n : Int) - 1) temp with
  | case1 heap i inside j stop =>
    rw [siftDownLoop, dif_pos inside]
    exact (if_pos stop : _ = _) ▸ .refl _
  | case2 heap i inside j less ih =>
    rw [siftDownLoop, dif_pos inside]
    obtain ⟨pos, bound, up, -⟩ := smaller_child time heap inside (rfl : _ = j)
    have other : j ≠ i := by
      have down := Heap.parent_lt pos
      omega
    have moved := ih bound
    rw [Heap.update_swap other] at moved
    exact (if_neg less : _ = _) ▸ moved.trans (Heap.elements_swap lt bound)
  | case3 heap i outside =>
    rw [siftDownLoop, dif_neg outside]

theorem siftDownLoop_ordered (sinking : Heap.Sinking time (Function.update heap i temp) n i) (lt : i < n) :
    Heap.Ordered time (siftDownLoop time ((n : Int) - 1) temp heap i) n := by
  induction heap, i using siftDownLoop.induct time ((n : Int) - 1) temp with
  | case1 heap i inside j stop =>
    rw [siftDownLoop, dif_pos inside]
    obtain ⟨pos, bound, up, least⟩ := smaller_child time heap inside (rfl : _ = j)
    have ordered : Heap.Ordered time (Function.update heap i temp) n := by
      apply sinking.done
      intro k posK ltK upK
      have down := Heap.parent_lt posK
      rw [Function.update_self, Function.update_of_ne (by omega)]
      exact (ge_iff_le.1 stop).trans (least k posK ltK upK)
    exact (if_pos stop : _ = _) ▸ ordered
  | case2 heap i inside j less ih =>
    rw [siftDownLoop, dif_pos inside]
    obtain ⟨pos, bound, up, least⟩ := smaller_child time heap inside (rfl : _ = j)
    have down := Heap.parent_lt pos
    have other : j ≠ i := by omega
    have moved : Heap.Sinking time (Function.update (Function.update heap i (heap j)) j temp) n j := by
      rw [Heap.update_swap other]
      apply sinking.move pos bound up
      · intro k posK ltK upK
        have downK := Heap.parent_lt posK
        rw [Function.update_of_ne other, Function.update_of_ne (by omega)]
        exact least k posK ltK upK
      · rw [Function.update_self, Function.update_of_ne other]
        exact not_le.1 less
    exact (if_neg less : _ = _) ▸ ih moved bound
  | case3 heap i outside =>
    rw [siftDownLoop, dif_neg outside]
    apply sinking.done
    intro k pos ltK up
    unfold Heap.parent at up
    omega

end Loops

section Operations

variable {time time' : Nat → ℚ} {h : MinHeap} {p x : Nat}

theorem mem_elements : p ∈ h.elements ↔ ∃ i < h.currentSize, h.heap i = p := Heap.mem_elements

theorem Ordered.congr (ordered : h.Ordered time) (same : ∀ p ∈ h.elements, time' p = time p) : h.Ordered time' := by
  intro i pos lt
  have up := Heap.parent_lt pos
  rw [same _ (mem_elements.2 ⟨i, lt, rfl⟩), same _ (mem_elements.2 ⟨_, up.trans lt, rfl⟩)]
  exact ordered i pos lt

theorem Ordered.root_le (ordered : h.Ordered time) (mem : p ∈ h.elements) : time (h.heap 0) ≤ time p := by
  obtain ⟨i, lt, rfl⟩ := mem_elements.1 mem
  exact Heap.Ordered.root_le ordered lt

theorem findMin_eq_some : h.FindMin = some p ↔ 0 < h.currentSize ∧ h.heap 0 = p := by
  unfold FindMin
  split_ifs with empty
  · simp [empty]
  · simp [Nat.pos_of_ne_zero empty]

theorem mem_of_findMin (found : h.FindMin = some p) : p ∈ h.elements := by
  obtain ⟨pos, root⟩ := findMin_eq_some.1 found
  exact mem_elements.2 ⟨0, pos, root⟩

theorem insert_eq (time : Nat → ℚ) (x : Nat) (room : h.currentSize ≠ h.maxHeapSize) : (h.Insert time x).1 =
    ⟨siftUp time (Function.update h.heap h.currentSize x) h.currentSize, h.currentSize + 1, h.maxHeapSize⟩ := by
  rw [Insert, if_neg room]

theorem insert_elements (time : Nat → ℚ) (x : Nat) (room : h.currentSize ≠ h.maxHeapSize) : (h.Insert time x).1.elements.Perm (h.elements ++ [x]) := by
  rw [insert_eq time x room, elements, siftUp, Function.update_self]
  apply (siftUpLoop_perm (Nat.lt_succ_self _)).trans
  rw [Function.update_idem, Heap.elements_push]
  exact .refl _

theorem insert_ordered (room : h.currentSize ≠ h.maxHeapSize) (ordered : h.Ordered time) : (h.Insert time x).1.Ordered time := by
  rw [insert_eq time x room, Ordered, siftUp, Function.update_self]
  apply siftUpLoop_ordered (Nat.lt_succ_self _)
  rw [Function.update_idem]
  exact Heap.Ordered.push ordered x

/-- The root stays where it is when nothing smaller comes. -/
theorem insert_root (room : h.currentSize ≠ h.maxHeapSize) (found : h.FindMin = some p) (least : time p ≤ time x) :
    (h.Insert time x).1.FindMin = some p := by
  obtain ⟨pos, rfl⟩ := findMin_eq_some.1 found
  have root : Function.update h.heap h.currentSize x 0 = h.heap 0 := Function.update_of_ne pos.ne _ _
  refine findMin_eq_some.2 ⟨?_, ?_⟩
  · rw [insert_eq time x room]
    exact Nat.succ_pos _
  · rw [insert_eq time x room]
    show siftUp time _ _ 0 = _
    rw [siftUp, Function.update_self, siftUpLoop_root pos (root.symm ▸ least), root]

theorem removeMin_eq (time : Nat → ℚ) (pos : 0 < h.currentSize) : (h.RemoveMin time).1 =
    ⟨siftDown time (Function.update h.heap 0 (h.heap (h.currentSize - 1))) 0 ((h.currentSize - 1 : Nat) - 1 : Int), h.currentSize - 1,
      h.maxHeapSize⟩ := by
  rw [RemoveMin, if_neg pos.ne']

/-- `RemoveMin` takes the root out and nothing else, even where the order is broken. -/
theorem removeMin_elements (time : Nat → ℚ) (found : h.FindMin = some p) : (p :: (h.RemoveMin time).1.elements).Perm h.elements := by
  obtain ⟨pos, rfl⟩ := findMin_eq_some.1 found
  obtain ⟨n, size⟩ : ∃ n, h.currentSize = n + 1 := ⟨h.currentSize - 1, by omega⟩
  rw [removeMin_eq time pos, elements, elements, siftDown]
  simp only [size, Nat.add_sub_cancel, Function.update_self]
  refine .trans (.cons _ ?_) Heap.elements_pop
  rcases Nat.eq_zero_or_pos n with rfl | pos'
  · exact .refl _
  · apply (siftDownLoop_perm pos').trans
    rw [Function.update_idem]

/-- `RemoveMin` restores the order when the root's time has changed. -/
theorem removeMin_ordered (ordered : h.Ordered time) (pos : 0 < h.currentSize)
    (same : ∀ i, 0 < i → i < h.currentSize → time' (h.heap i) = time (h.heap i)) : (h.RemoveMin time').1.Ordered time' := by
  obtain ⟨n, size⟩ : ∃ n, h.currentSize = n + 1 := ⟨h.currentSize - 1, by omega⟩
  rw [removeMin_eq time' pos, Ordered, siftDown]
  simp only [size, Nat.add_sub_cancel, Function.update_self]
  rcases Nat.eq_zero_or_pos n with rfl | pos'
  · intro i _ lt
    cases lt
  · apply siftDownLoop_ordered _ pos'
    rw [Function.update_idem]
    have below : n ≤ h.currentSize := by omega
    exact Heap.Ordered.replace_root ordered below same _

end Operations

end MinHeap

end GameServer.LibGame

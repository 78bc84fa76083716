import GameServer.LibGame.SharedMemory

/-!
# The sweep for dirty blocks

The loop of `clearDirtyBlock` without a pause. After `erase` the iterator stands on the next block, and the loop advances it once
more: the block behind one that is put back is not looked at, and when there is none the iterator goes past the end of the list. So
the sweep does what it is for only when there is nothing to put back (`sweep_iff`). The two lists come out right when the block behind
every one that is put back is to stay (`lists_iff`), and whenever the loop returns no block is lost (`Cleared.perm`).

The loop is that of `SharedMemory.clearDirtyBlock`, turn by turn (`turns_eq`).
-/

namespace GameServer.LibGame

open GameServer.Lib

namespace SharedMemory

variable {V : Type}

/-- The two lists after the sweep, and the blocks that were looked at. -/
structure Cleared where
  used : List Nat
  free : List Nat
  visited : List Nat
  deriving DecidableEq, Repr

/-- The loop from the iterator on; `used` are the blocks before it. It has no result where the iterator goes past the end. -/
def sweepLoop (m : SharedMemory V) : List Nat → (used free visited : List Nat) → Option Cleared
  | [], used, free, visited => some ⟨used, free, visited⟩
  | b :: rest, used, free, visited =>
    if reclaims (m.blocks b).object then
      match rest with
      | [] => none
      | c :: rest => m.sweepLoop rest (used ++ [c]) (free ++ [b]) (visited ++ [b])
    else m.sweepLoop rest (used ++ [b]) free (visited ++ [b])

/-- `clearDirtyBlock`. -/
def sweepAll (m : SharedMemory V) : Option Cleared := m.sweepLoop m.m_UsedObjectCollect [] m.m_FreeObjectCollect []

/-- The block is neither to be saved nor being handled nor in use. -/
def dirty (m : SharedMemory V) (b : Nat) : Bool := reclaims (m.blocks b).object

/-- Every used block is looked at once, and the dirty ones move to the end of the free list. -/
structure Swept (m : SharedMemory V) (r : Cleared) : Prop where
  visited : r.visited = m.m_UsedObjectCollect
  used : r.used = m.m_UsedObjectCollect.filter (!m.dirty ·)
  free : r.free = m.m_FreeObjectCollect ++ m.m_UsedObjectCollect.filter m.dirty

/-- Behind every dirty block comes one that is not. -/
def Spaced (m : SharedMemory V) : List Nat → Prop
  | [] => True
  | b :: rest => if m.dirty b then rest.head?.any (!m.dirty ·) = true ∧ m.Spaced rest else m.Spaced rest

section Loop

variable {m : SharedMemory V} {rest used free visited : List Nat} {r : Cleared} {b : Nat}

theorem sweepLoop_nil : m.sweepLoop [] used free visited = some ⟨used, free, visited⟩ := by
  rw [sweepLoop]

theorem sweepLoop_clean (clean : m.dirty b = false) :
    m.sweepLoop (b :: rest) used free visited = m.sweepLoop rest (used ++ [b]) free (visited ++ [b]) := by
  unfold dirty at clean
  cases rest with
  | nil => rw [sweepLoop.eq_2, clean, if_neg Bool.false_ne_true]
  | cons c rest => rw [sweepLoop.eq_3, clean, if_neg Bool.false_ne_true]

theorem sweepLoop_last (dirty : m.dirty b = true) : m.sweepLoop [b] used free visited = none := by
  unfold SharedMemory.dirty at dirty
  rw [sweepLoop.eq_2, dirty, if_pos rfl]

theorem sweepLoop_dirty (dirty : m.dirty b = true) (c : Nat) :
    m.sweepLoop (b :: c :: rest) used free visited = m.sweepLoop rest (used ++ [c]) (free ++ [b]) (visited ++ [b]) := by
  unfold SharedMemory.dirty at dirty
  rw [sweepLoop.eq_3, dirty, if_pos rfl]

/-- **Induction along the loop**: it goes on behind a block that stays, and behind the block after one that is put back. -/
theorem sweep_induction {P : List Nat → Prop} (nil : P []) (clean : ∀ b rest, m.dirty b = false → P rest → P (b :: rest))
    (last : ∀ b, m.dirty b = true → P [b]) (skip : ∀ b c rest, m.dirty b = true → P rest → P (b :: c :: rest)) : ∀ rest, P rest
  | [] => nil
  | b :: rest => by
    have later := sweep_induction nil clean last skip rest
    cases here : m.dirty b with
    | false => exact clean b rest here later
    | true =>
      cases rest with
      | nil => exact last b here
      | cons c rest => exact skip b c rest here (sweep_induction nil clean last skip rest)

/-- Where the loop returns: only dirty blocks have moved, in their order, and for each one a block was not looked at. -/
theorem sweepLoop_moved (done : m.sweepLoop rest used free visited = some r) : ∃ moved kept, r.free = free ++ moved ∧
    r.used = used ++ kept ∧ moved.Sublist (rest.filter m.dirty) ∧ kept.Sublist rest ∧ (moved ++ kept).Perm rest ∧
    r.visited.length + moved.length = visited.length + rest.length := by
  revert used free visited
  refine sweep_induction (m := m) (P := fun rest => ∀ {used free visited}, m.sweepLoop rest used free visited = some r →
    ∃ moved kept, r.free = free ++ moved ∧ r.used = used ++ kept ∧ moved.Sublist (rest.filter m.dirty) ∧ kept.Sublist rest ∧
      (moved ++ kept).Perm rest ∧ r.visited.length + moved.length = visited.length + rest.length) ?_ ?_ ?_ ?_ rest
  · intro used free visited done
    rw [sweepLoop_nil] at done
    obtain rfl := Option.some.inj done
    exact ⟨[], [], (List.append_nil _).symm, (List.append_nil _).symm, .slnil, .slnil, .nil, rfl⟩
  · intro b rest clean ih used free visited done
    rw [sweepLoop_clean clean] at done
    obtain ⟨moved, kept, toFree, toUsed, dirty, some', all, count⟩ := ih done
    refine ⟨moved, b :: kept, toFree, ?_, ?_, some'.cons_cons b, List.perm_middle.trans (all.cons b), ?_⟩
    · rw [toUsed, List.append_assoc, List.singleton_append]
    · rw [List.filter_cons, clean]
      exact dirty
    · rw [List.length_append, List.length_singleton] at count
      rw [List.length_cons]
      omega
  · intro b dirty used free visited done
    rw [sweepLoop_last dirty] at done
    cases done
  · intro b c rest dirty ih used free visited done
    rw [sweepLoop_dirty dirty] at done
    obtain ⟨moved, kept, toFree, toUsed, dirty', some', all, count⟩ := ih done
    refine ⟨b :: moved, c :: kept, ?_, ?_, ?_, (some'.cons_cons c).cons b, ?_, ?_⟩
    · rw [toFree, List.append_assoc, List.singleton_append]
    · rw [toUsed, List.append_assoc, List.singleton_append]
    · rw [List.filter_cons, dirty, if_pos rfl, List.filter_cons]
      split_ifs
      · exact (dirty'.trans (List.sublist_cons_self _ _)).cons_cons b
      · exact dirty'.cons_cons b
    · exact (List.perm_middle.trans (all.cons c)).cons b
    · rw [List.length_append, List.length_singleton] at count
      rw [List.length_cons, List.length_cons, List.length_cons]
      omega

/-- Without a dirty block every block is looked at and none is moved. -/
theorem sweepLoop_of_clean (clean : ∀ b ∈ rest, m.dirty b = false) :
    m.sweepLoop rest used free visited = some ⟨used ++ rest, free, visited ++ rest⟩ := by
  induction rest generalizing used visited with
  | nil => rw [sweepLoop_nil, List.append_nil, List.append_nil]
  | cons b rest ih =>
    rw [sweepLoop_clean (clean b List.mem_cons_self), ih fun c mem => clean c (List.mem_cons_of_mem b mem), List.append_assoc,
      List.append_assoc, List.singleton_append]

/-- The lists come out right exactly when every dirty block is followed by one that is not. -/
theorem sweepLoop_lists : (∃ visited', m.sweepLoop rest used free visited =
    some ⟨used ++ rest.filter (!m.dirty ·), free ++ rest.filter m.dirty, visited'⟩) ↔ m.Spaced rest := by
  revert used free visited
  refine sweep_induction (m := m) (P := fun rest => ∀ {used free visited}, (∃ visited', m.sweepLoop rest used free visited =
    some ⟨used ++ rest.filter (!m.dirty ·), free ++ rest.filter m.dirty, visited'⟩) ↔ m.Spaced rest) ?_ ?_ ?_ ?_ rest
  · intro used free visited
    refine iff_of_true ⟨visited, ?_⟩ trivial
    rw [sweepLoop_nil, List.filter_nil, List.filter_nil, List.append_nil, List.append_nil]
  · intro b rest clean ih used free visited
    have go := @ih (used ++ [b]) free (visited ++ [b])
    rw [sweepLoop_clean clean, Spaced, clean, if_neg Bool.false_ne_true, ← go, List.filter_cons, List.filter_cons, clean,
      List.append_assoc, List.singleton_append]
    rfl
  · intro b dirty used free visited
    rw [sweepLoop_last dirty, Spaced, dirty, if_pos rfl]
    refine iff_of_false ?_ fun spaced => Bool.false_ne_true spaced.1
    rintro ⟨visited', none'⟩
    cases none'
  · intro b c rest dirty ih used free visited
    rw [sweepLoop_dirty dirty, Spaced, dirty, if_pos rfl, List.head?_cons, Option.any_some, Spaced]
    cases next : m.dirty c with
    | false =>
      have go := @ih (used ++ [c]) (free ++ [b]) (visited ++ [b])
      rw [if_neg Bool.false_ne_true, ← go]
      simp only [List.filter_cons, dirty, next, Bool.not_true, Bool.not_false, if_true, List.append_assoc, List.singleton_append,
        Bool.false_eq_true, if_false, true_and]
    | true =>
      refine iff_of_false ?_ fun spaced => Bool.false_ne_true spaced.1
      rintro ⟨visited', done⟩
      obtain ⟨moved, kept, toFree, -, fewer, -⟩ := sweepLoop_moved done
      have length := congrArg List.length toFree
      have le := fewer.length_le
      simp only [List.filter_cons, dirty, next, if_true, List.length_append, List.length_cons, List.length_nil] at length
      omega

end Loop

section Sweep

variable {m : SharedMemory V} {r : Cleared}

/-- Whenever the sweep returns no block is lost and none is there twice. -/
theorem Cleared.perm (done : m.sweepAll = some r) : (r.free ++ r.used).Perm (m.m_FreeObjectCollect ++ m.m_UsedObjectCollect) := by
  obtain ⟨moved, kept, toFree, toUsed, -, -, all, -⟩ := sweepLoop_moved done
  rw [toFree, toUsed, List.nil_append, List.append_assoc]
  exact all.append_left _

/-- The lists are right when every dirty block is followed by one that stays. -/
theorem lists_iff (m : SharedMemory V) : (∃ r, m.sweepAll = some r ∧ r.used = m.m_UsedObjectCollect.filter (!m.dirty ·) ∧
    r.free = m.m_FreeObjectCollect ++ m.m_UsedObjectCollect.filter m.dirty) ↔ m.Spaced m.m_UsedObjectCollect := by
  rw [← @sweepLoop_lists V m m.m_UsedObjectCollect [] m.m_FreeObjectCollect []]
  constructor
  · rintro ⟨⟨used, free, visited⟩, done, rfl, rfl⟩
    exact ⟨visited, done⟩
  · rintro ⟨visited, done⟩
    exact ⟨_, done, rfl, rfl⟩

/-- **The sweep is exact** if and only if there is nothing to sweep: every used block is looked at once, and exactly the dirty ones move to
the end of the free list, when no used block is dirty and only then. -/
theorem sweep_iff (m : SharedMemory V) : (∃ r, m.sweepAll = some r ∧ Swept m r) ↔ ∀ b ∈ m.m_UsedObjectCollect, m.dirty b = false := by
  constructor
  · rintro ⟨r, done, visited, -, free⟩ b mem
    obtain ⟨moved, kept, toFree, -, -, -, -, count⟩ := sweepLoop_moved done
    rw [visited, List.length_nil] at count
    obtain rfl : moved = m.m_UsedObjectCollect.filter m.dirty := List.append_cancel_left (toFree.symm.trans free)
    have none' : m.m_UsedObjectCollect.filter m.dirty = [] := List.length_eq_zero_iff.1 (by omega)
    rw [List.filter_eq_nil_iff] at none'
    exact Bool.eq_false_of_not_eq_true (none' b mem)
  · intro clean
    refine ⟨_, sweepLoop_of_clean clean, rfl, ?_, ?_⟩
    · rw [List.nil_append]
      refine (List.filter_eq_self.2 fun b mem => ?_).symm
      rw [clean b mem]
      rfl
    · have none' : m.m_UsedObjectCollect.filter m.dirty = [] := by
        rw [List.filter_eq_nil_iff]
        intro b mem
        rw [clean b mem]
        exact Bool.false_ne_true
      rw [none', List.append_nil]

/-- Two blocks in use. -/
def working : SharedMemory Nat := { (init 3 100 : SharedMemory Nat) with
  blocks := fun _ => { (newBlock : Block Nat) with object := { SharedObject.init with m_used := true } }
  m_FreeObjectCollect := [2]
  m_UsedObjectCollect := [0, 1] }

theorem sweep_iff_working : ∃ r, working.sweepAll = some r ∧ Swept working r := (sweep_iff working).2 (by decide)

/-- A block that was released is the last one of the list. -/
theorem sweep_released : (SharedMemory.sweepAll { working with blocks := Function.update working.blocks 1 newBlock }) = none := by
  decide

end Sweep

section Turns

variable [Inhabited V] {m : SharedMemory V} {rest seen visited : List Nat} {r : Cleared} {bCreate : Bool}

/-- One turn of the game process, at a block that stays. -/
theorem turn_clean {b : Nat} (clean : m.dirty b = false) (here : m.sweep = some ⟨bCreate, seen, b :: rest⟩) :
    step m .turn = some { m with sweep := some ⟨bCreate, seen ++ [b], rest⟩ } := by
  unfold dirty at clean
  rw [step, here, Option.map_some, clearDirtyBlock, clean, if_neg Bool.false_ne_true]

theorem turn_dirty {b c : Nat} (dirty : m.dirty b = true) (here : m.sweep = some ⟨bCreate, seen, b :: c :: rest⟩) :
    step m .turn = some { m with
      m_FreeObjectCollect := m.m_FreeObjectCollect ++ [b]
      m_UsedObjectCollect := seen ++ c :: rest
      sweep := some ⟨bCreate, seen ++ [c], rest⟩ } := by
  unfold SharedMemory.dirty at dirty
  rw [step, here, Option.map_some, clearDirtyBlock, dirty, if_pos rfl]
  rfl

/-- **The turns of the game process** are the loop: when nothing comes between them, the sweep has its lists at the end. -/
theorem turns_eq (here : m.sweep = some ⟨bCreate, seen, rest⟩) (used : m.m_UsedObjectCollect = seen ++ rest)
    (done : m.sweepLoop rest seen m.m_FreeObjectCollect visited = some r) : ∃ turns n,
      Runs step (fun _ _ => True) m (List.replicate turns .turn) n ∧ r.visited.length = visited.length + turns ∧
      n.sweep = some ⟨bCreate, r.used, []⟩ ∧ n.m_UsedObjectCollect = r.used ∧ n.m_FreeObjectCollect = r.free := by
  have all := sweep_induction (m := m) (P := fun rest => ∀ (u : SharedMemory V) (seen visited : List Nat), u.blocks = m.blocks →
    u.sweep = some ⟨bCreate, seen, rest⟩ → u.m_UsedObjectCollect = seen ++ rest →
    m.sweepLoop rest seen u.m_FreeObjectCollect visited = some r → ∃ turns n,
      Runs step (fun _ _ => True) u (List.replicate turns .turn) n ∧ r.visited.length = visited.length + turns ∧
      n.sweep = some ⟨bCreate, r.used, []⟩ ∧ n.m_UsedObjectCollect = r.used ∧ n.m_FreeObjectCollect = r.free)
    ?nil ?clean ?last ?skip rest
  case nil =>
    intro u seen visited _ here used done
    rw [sweepLoop_nil] at done
    obtain rfl := Option.some.inj done
    rw [List.append_nil] at used
    exact ⟨0, u, .refl, rfl, here, used, rfl⟩
  case clean =>
    intro b rest clean ih u seen visited blocks here used done
    rw [sweepLoop_clean clean] at done
    have next := turn_clean (m := u) (by rw [dirty, blocks]; exact clean) here
    obtain ⟨turns, n, run, count, ends⟩ := ih { u with sweep := some ⟨bCreate, seen ++ [b], rest⟩ } (seen ++ [b]) (visited ++ [b])
      blocks rfl (used.trans (List.append_assoc seen [b] rest).symm) done
    have first : Runs step (fun _ _ => True) u [.turn] { u with sweep := some ⟨bCreate, seen ++ [b], rest⟩ } := .single trivial next
    refine ⟨turns + 1, n, first.trans run, ?_, ends⟩
    rw [List.length_append, List.length_singleton] at count
    omega
  case last =>
    intro b dirty u seen visited _ _ _ done
    rw [sweepLoop_last dirty] at done
    cases done
  case skip =>
    intro b c rest dirty ih u seen visited blocks here used done
    rw [sweepLoop_dirty dirty] at done
    have next := turn_dirty (m := u) (by rw [SharedMemory.dirty, blocks]; exact dirty) here
    obtain ⟨turns, n, run, count, ends⟩ := ih { u with
      m_FreeObjectCollect := u.m_FreeObjectCollect ++ [b]
      m_UsedObjectCollect := seen ++ c :: rest
      sweep := some ⟨bCreate, seen ++ [c], rest⟩ } (seen ++ [c]) (visited ++ [b]) blocks rfl
      (List.append_assoc seen [c] rest).symm done
    refine ⟨turns + 1, n, (Runs.single trivial next).trans run, ?_, ends⟩
    rw [List.length_append, List.length_singleton] at count
    omega
  exact all m seen visited rfl here used done

end Turns

end SharedMemory

end GameServer.LibGame

import Mathlib.Data.List.Basic
import Mathlib.Data.List.Nodup
import Mathlib.Data.List.Perm.Basic
import Mathlib.Order.Lattice

/-!
# Maps in the order of their keys

`OrderedMap` is a `std::map`: entries in strictly increasing order of their keys. `find`, `set` (the assignment
`m[k] = v`) and `erase` are specified by what is found afterwards, and `keys` by the keys that have a value. `increase`
and `decrease` keep a map of counters without zeros, and `Counts` says that it is the histogram of a list.
-/

namespace GameServer.Lib

structure OrderedMap (K V : Type) [LinearOrder K] where
  entries : List (K × V)
  sorted : entries.Pairwise fun a b => a.1 < b.1

namespace OrderedMap

variable {K V : Type} [LinearOrder K] {m : OrderedMap K V} {k k' : K} {v : V} {l : List (K × V)} {e : K × V}

def empty : OrderedMap K V := ⟨[], .nil⟩

def keys (m : OrderedMap K V) : List K := m.entries.map Prod.fst

def size (m : OrderedMap K V) : Nat := m.entries.length

def find (m : OrderedMap K V) (k : K) : Option V := (m.entries.find? fun e => e.1 = k).map Prod.snd

/-- The entries with the value of `k` set. -/
def setList (k : K) (v : V) : List (K × V) → List (K × V)
  | [] => [(k, v)]
  | e :: rest => if k < e.1 then (k, v) :: e :: rest else if e.1 = k then (k, v) :: rest else e :: setList k v rest

theorem mem_setList (sorted : l.Pairwise fun a b => a.1 < b.1) :
    e ∈ setList k v l ↔ e = (k, v) ∨ (e.1 ≠ k ∧ e ∈ l) := by
  induction l with
  | nil => simp [setList]
  | cons f rest ih =>
    obtain ⟨least, sorted⟩ := List.pairwise_cons.1 sorted
    unfold setList
    split
    · next before =>
      have other : ∀ e ∈ f :: rest, e.1 ≠ k := by
        intro e mem
        rcases List.mem_cons.1 mem with rfl | mem
        · exact ne_of_gt before
        · exact ne_of_gt (lt_trans before (least e mem))
      constructor
      · intro mem
        rcases List.mem_cons.1 mem with rfl | mem
        · exact .inl rfl
        · exact .inr ⟨other e mem, mem⟩
      · rintro (rfl | ⟨-, mem⟩)
        · exact List.mem_cons_self
        · exact List.mem_cons_of_mem _ mem
    · split
      · next same =>
        have other : ∀ e ∈ rest, e.1 ≠ k := fun e mem => same ▸ ne_of_gt (least e mem)
        constructor
        · intro mem
          rcases List.mem_cons.1 mem with rfl | mem
          · exact .inl rfl
          · exact .inr ⟨other e mem, List.mem_cons_of_mem f mem⟩
        · rintro (rfl | ⟨ne, mem⟩)
          · exact List.mem_cons_self
          · rcases List.mem_cons.1 mem with rfl | mem
            · exact absurd same ne
            · exact List.mem_cons_of_mem _ mem
      · next other =>
        rw [List.mem_cons, List.mem_cons, ih sorted]
        constructor
        · rintro (rfl | rfl | ⟨ne, mem⟩)
          · exact .inr ⟨other, .inl rfl⟩
          · exact .inl rfl
          · exact .inr ⟨ne, .inr mem⟩
        · rintro (rfl | ⟨ne, rfl | mem⟩)
          · exact .inr (.inl rfl)
          · exact .inl rfl
          · exact .inr (.inr ⟨ne, mem⟩)

theorem setList_sorted (sorted : l.Pairwise fun a b => a.1 < b.1) : (setList k v l).Pairwise fun a b => a.1 < b.1 := by
  induction l with
  | nil => exact List.pairwise_singleton _ _
  | cons f rest ih =>
    obtain ⟨least, rest_sorted⟩ := List.pairwise_cons.1 sorted
    unfold setList
    split
    · next before =>
      refine .cons ?_ sorted
      intro e mem
      rcases List.mem_cons.1 mem with rfl | mem
      · exact before
      · exact lt_trans before (least e mem)
    · next after =>
      split
      · next same => exact .cons (fun e mem => same ▸ least e mem) rest_sorted
      · next other =>
        refine .cons ?_ (ih rest_sorted)
        intro e mem
        rcases (mem_setList rest_sorted).1 mem with rfl | ⟨-, mem⟩
        · exact lt_of_le_of_ne (not_lt.1 after) other
        · exact least e mem

def set (m : OrderedMap K V) (k : K) (v : V) : OrderedMap K V := ⟨setList k v m.entries, setList_sorted m.sorted⟩

def erase (m : OrderedMap K V) (k : K) : OrderedMap K V := ⟨m.entries.filter fun e => e.1 ≠ k, m.sorted.filter _⟩

theorem nodup_keys (m : OrderedMap K V) : m.keys.Nodup :=
  List.pairwise_map.2 (m.sorted.imp fun less => ne_of_lt less)

theorem find_eq_some_iff : m.find k = some v ↔ (k, v) ∈ m.entries := by
  constructor
  · intro found
    obtain ⟨e, at_, rfl⟩ := Option.map_eq_some_iff.1 found
    have same : e.1 = k := by simpa using List.find?_some at_
    exact same ▸ List.mem_of_find?_eq_some at_
  · intro mem
    cases found : m.entries.find? fun e => e.1 = k with
    | none =>
      have none := List.find?_eq_none.1 found _ mem
      simp at none
    | some e =>
      have same : e.1 = k := by simpa using List.find?_some found
      have unique : e = (k, v) := List.inj_on_of_nodup_map m.nodup_keys (List.mem_of_find?_eq_some found) mem same
      rw [find, found, unique]
      rfl

theorem mem_keys : k ∈ m.keys ↔ ∃ v, m.find k = some v := by
  simp only [keys, List.mem_map, find_eq_some_iff]
  constructor
  · rintro ⟨e, mem, rfl⟩
    exact ⟨e.2, mem⟩
  · rintro ⟨v, mem⟩
    exact ⟨(k, v), mem, rfl⟩

theorem not_mem_keys : k ∉ m.keys ↔ m.find k = none := by
  rw [mem_keys, ← Option.isSome_iff_exists, Bool.not_eq_true, Option.isSome_eq_false_iff, Option.isNone_iff_eq_none]

@[simp] theorem find_empty : (empty : OrderedMap K V).find k = none := rfl

theorem find_set : (m.set k v).find k' = if k' = k then some v else m.find k' := by
  apply Option.ext
  intro v'
  rw [find_eq_some_iff, set, mem_setList m.sorted]
  split
  · next same => simp [same, eq_comm]
  · next other => simp [other, find_eq_some_iff]

theorem find_erase : (m.erase k).find k' = if k' = k then none else m.find k' := by
  apply Option.ext
  intro v'
  rw [find_eq_some_iff, erase, List.mem_filter]
  split
  · next same => simp [same]
  · next other => simp [other, find_eq_some_iff]

theorem mem_keys_set : k' ∈ (m.set k v).keys ↔ k' = k ∨ k' ∈ m.keys := by
  simp only [mem_keys, find_set]
  split
  · next same => simp [same]
  · next other => simp [other]

theorem mem_keys_erase : k' ∈ (m.erase k).keys ↔ k' ≠ k ∧ k' ∈ m.keys := by
  simp only [mem_keys, find_erase]
  split
  · next same => simp [same]
  · next other => simp [other]

theorem keys_set_perm (new : k ∉ m.keys) : (m.set k v).keys.Perm (k :: m.keys) := by
  rw [List.perm_ext_iff_of_nodup (nodup_keys _) (List.nodup_cons.2 ⟨new, nodup_keys _⟩)]
  intro k'
  rw [mem_keys_set, List.mem_cons]

theorem keys_erase_perm (old : k ∈ m.keys) : m.keys.Perm (k :: (m.erase k).keys) := by
  have new : k ∉ (m.erase k).keys := fun mem => (mem_keys_erase.1 mem).1 rfl
  rw [List.perm_ext_iff_of_nodup (nodup_keys _) (List.nodup_cons.2 ⟨new, nodup_keys _⟩)]
  intro k'
  rw [List.mem_cons, mem_keys_erase]
  by_cases same : k' = k
  · simp [same, old]
  · simp [same]

end OrderedMap

section Counters

variable {K : Type} [LinearOrder K] {m : OrderedMap K Int} {k k' : K} {ks ks' : List K}

/-- Counting one less; a counter that reaches zero is erased. -/
def decrease (m : OrderedMap K Int) (k : K) : OrderedMap K Int :=
  match m.find k with
  | none => m
  | some count => if count - 1 ≤ 0 then m.erase k else m.set k (count - 1)

/-- `m` is the histogram of `ks`, without zeros. -/
def Counts (m : OrderedMap K Int) (ks : List K) : Prop :=
  ∀ k, m.find k = if ks.count k = 0 then none else some (ks.count k : Int)

theorem Counts.perm (counts : Counts m ks) (perm : ks.Perm ks') : Counts m ks' := by
  intro k
  rw [counts k, perm.count_eq]

theorem Counts.empty : Counts (K := K) OrderedMap.empty [] := by
  intro k
  simp

theorem Counts.getD (counts : Counts m ks) (k : K) : (m.find k).getD 0 = (ks.count k : Int) := by
  rw [counts k]
  split
  · next none => simp [none]
  · rfl

theorem Counts.increase (counts : Counts m ks) (k : K) : Counts (m.set k ((m.find k).getD 0 + 1)) (k :: ks) := by
  intro k'
  rw [OrderedMap.find_set, counts.getD, List.count_cons]
  by_cases same : k' = k
  · subst same
    simp
  · rw [if_neg same, counts k']
    simp [Ne.symm same]

theorem Counts.decrease (counts : Counts m (k :: ks)) : Counts (decrease m k) ks := by
  have here := counts k
  rw [List.count_cons_self, if_neg (Nat.succ_ne_zero _)] at here
  intro k'
  unfold Lib.decrease
  rw [here]
  dsimp only
  have other : k' ≠ k → m.find k' = if ks.count k' = 0 then none else some (ks.count k' : Int) := by
    intro ne
    rw [counts k', List.count_cons_of_ne (Ne.symm ne)]
  split
  · next low =>
    rw [OrderedMap.find_erase]
    split
    · next same =>
      subst same
      rw [if_pos]
      omega
    · next ne => exact other ne
  · next high =>
    rw [OrderedMap.find_set]
    split
    · next same =>
      subst same
      rw [if_neg (by omega)]
      congr 1
      omega
    · next ne => exact other ne

/-- A map is the histogram of at most one list, up to its order. -/
theorem Counts.unique (counts : Counts m ks) (counts' : Counts m ks') : ks.Perm ks' := by
  rw [List.perm_iff_count]
  intro k
  have same := (counts.getD k).symm.trans (counts'.getD k)
  omega

end Counters

end GameServer.Lib

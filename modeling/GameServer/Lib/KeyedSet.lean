import GameServer.Lib.OrderedMap
import Mathlib.Data.List.Sort

/-!
# Sets of objects that are ordered by a key

`KeyedSet` is a `std::set` of objects whose comparison looks at a key of them: a map from the keys to the objects that have them. An
object of the set that is changed without its key is `put` again.
-/

namespace GameServer.Lib

structure KeyedSet (A : Type) {K : Type} [LinearOrder K] (key : A → K) where
  map : OrderedMap K A
  keyed : ∀ e ∈ map.entries, key e.2 = e.1

namespace KeyedSet

variable {A K : Type} [LinearOrder K] {key : A → K} {s t : KeyedSet A key} {a b : A} {k k' : K}

def empty : KeyedSet A key := ⟨OrderedMap.empty, fun _ none' => by cases none'⟩

def items (s : KeyedSet A key) : List A := s.map.entries.map Prod.snd

def find (s : KeyedSet A key) (k : K) : Option A := s.map.find k

def put (s : KeyedSet A key) (a : A) : KeyedSet A key where
  map := s.map.set (key a) a
  keyed e mem := by
    rcases (OrderedMap.mem_setList s.map.sorted).1 mem with rfl | ⟨-, mem⟩
    · rfl
    · exact s.keyed e mem

def erase (s : KeyedSet A key) (k : K) : KeyedSet A key where
  map := s.map.erase k
  keyed e mem := s.keyed e (List.mem_of_mem_filter mem)

@[simp] theorem find_empty (k : K) : (empty : KeyedSet A key).find k = none := rfl

theorem find_put : (s.put a).find k = if k = key a then some a else s.find k := OrderedMap.find_set

theorem find_erase : (s.erase k).find k' = if k' = k then none else s.find k' := OrderedMap.find_erase

theorem key_of_find (found : s.find k = some a) : key a = k := s.keyed (k, a) (OrderedMap.find_eq_some_iff.1 found)

theorem mem_items : a ∈ s.items ↔ s.find (key a) = some a := by
  rw [items, List.mem_map]
  constructor
  · rintro ⟨e, mem, rfl⟩
    rw [s.keyed e mem]
    exact OrderedMap.find_eq_some_iff.2 mem
  · intro found
    exact ⟨(key a, a), OrderedMap.find_eq_some_iff.1 found, rfl⟩

theorem mem_items_of_find (found : s.find k = some a) : a ∈ s.items := by
  rw [mem_items, key_of_find found]
  exact found

theorem items_sorted (s : KeyedSet A key) : s.items.Pairwise fun a b => key a < key b := by
  refine List.pairwise_map.2 (s.map.sorted.imp_of_mem ?_)
  intro a b mem mem' less
  rw [s.keyed a mem, s.keyed b mem']
  exact less

theorem mem_items_put (mem : b ∈ (s.put a).items) : b = a ∨ b ∈ s.items := by
  rw [mem_items, find_put] at mem
  split_ifs at mem
  · exact .inl (Option.some.inj mem).symm
  · exact .inr (mem_items.2 mem)

theorem mem_items_erase (mem : a ∈ (s.erase k).items) : a ∈ s.items := by
  rw [mem_items, find_erase] at mem
  split_ifs at mem
  exact mem_items.2 mem

/-- A set is what is found in it. -/
theorem ext (same : ∀ k, s.find k = t.find k) : s = t := by
  have entries : s.map.entries = t.map.entries := by
    have mem : ∀ e, e ∈ s.map.entries ↔ e ∈ t.map.entries := by
      intro e
      have found : s.map.find e.1 = t.map.find e.1 := same e.1
      rw [← Prod.mk.eta (p := e), ← OrderedMap.find_eq_some_iff, ← OrderedMap.find_eq_some_iff, found]
    have distinct : ∀ m : OrderedMap K A, m.entries.Nodup := fun m => m.sorted.imp fun less same => ne_of_lt less (congrArg Prod.fst same)
    have perm := (List.perm_ext_iff_of_nodup (distinct s.map) (distinct t.map)).2 mem
    refine perm.eq_of_pairwise (fun a b _ _ less more => absurd less (lt_asymm more)) s.map.sorted t.map.sorted
  obtain ⟨⟨_, _⟩, _⟩ := s
  obtain ⟨⟨_, _⟩, _⟩ := t
  cases entries
  rfl

/-- The object that was put last counts. -/
theorem put_put (same : key a = key b) : (s.put a).put b = s.put b := by
  apply ext
  intro k
  rw [find_put, find_put, find_put, same]
  split_ifs <;> rfl

theorem find_foldl_put (as : List A) (sorted : as.Pairwise fun a b => key a < key b) (t : KeyedSet A key) :
    (as.foldl put t).find k = (as.find? fun a => key a = k).or (t.find k) := by
  induction as generalizing t with
  | nil => rfl
  | cons a as ih =>
    obtain ⟨first, sorted⟩ := List.pairwise_cons.1 sorted
    rw [List.foldl_cons, ih sorted, find_put, List.find?_cons]
    by_cases same : key a = k
    · have others : as.find? (fun b => key b = k) = none := by
        rw [List.find?_eq_none]
        intro b mem is
        have less := first b mem
        rw [of_decide_eq_true is, same] at less
        exact absurd less (lt_irrefl k)
      rw [others, if_pos same.symm, decide_eq_true same]
      rfl
    · rw [if_neg (Ne.symm same), decide_eq_false same]

theorem find?_items : (s.items.find? fun a => key a = k) = s.find k := by
  apply Option.ext
  intro a
  constructor
  · intro found
    have is : key a = k := by simpa using List.find?_some found
    rw [← is]
    exact mem_items.1 (List.mem_of_find?_eq_some found)
  · intro found
    cases first : s.items.find? fun a => key a = k with
    | none =>
      have other := List.find?_eq_none.1 first a (mem_items_of_find found)
      exact absurd (decide_eq_true (key_of_find found)) other
    | some b =>
      have is : key b = k := by simpa using List.find?_some first
      have mem := mem_items.1 (List.mem_of_find?_eq_some first)
      rw [is, found] at mem
      exact mem.symm

/-- The objects put one after the other make the set. -/
theorem foldl_put_items (s : KeyedSet A key) : s.items.foldl put empty = s := by
  apply ext
  intro k
  rw [find_foldl_put s.items s.items_sorted, find?_items, find_empty, Option.or_none]

end KeyedSet

end GameServer.Lib

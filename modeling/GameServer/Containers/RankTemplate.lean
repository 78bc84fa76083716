import GameServer.Lib.Run
import GameServer.Lib.Sorting
import Mathlib.Data.List.Induction
import Mathlib.Data.List.Nodup
import Mathlib.Logic.Function.Basic

/-!
# The ranking list

`RankTemplate` holds its records twice, in the vector `Ranks` in their order and in the map `KeyRanks` by
their keys. `OnDataChange` writes a record over the one with its key, or puts it at the end, sorts the
vector, and deletes what stands behind the first `max_size` records.

The callbacks `cbInsert`, `cbUpdate` and `cbDelete` are private and nothing sets them. They are empty, and
are left out.
-/

namespace GameServer.Containers

open GameServer.Lib

variable {α κ : Type} [Inhabited α] [DecidableEq κ]

/-- The two containers, and the records in memory, counted as they are made. -/
structure RankTemplate (α κ : Type) where
  Ranks : List Nat
  KeyRanks : κ → Option Nat
  record : Nat → α
  made : Nat
  deleted : List Nat

namespace RankTemplate

def empty : RankTemplate α κ := ⟨[], fun _ => none, fun _ => default, 0, []⟩

/-- `p` points to a record that was made and not deleted. -/
def Live (r : RankTemplate α κ) (p : Nat) : Prop := p < r.made ∧ p ∉ r.deleted

instance (r : RankTemplate α κ) (p : Nat) : Decidable (r.Live p) := inferInstanceAs (Decidable (_ ∧ _))

variable (S : StdSort) (Cmpp : α → α → Prop) [DecidableRel Cmpp] (GetKeyValue : α → κ)

def write (r : RankTemplate α κ) (p : Nat) (data : α) : RankTemplate α κ := { r with record := Function.update r.record p data }

/-- A new record at the end. -/
def append (r : RankTemplate α κ) (data : α) : RankTemplate α κ :=
  let pmItem := r.made
  { r.write pmItem data with
    Ranks := r.Ranks ++ [pmItem]
    KeyRanks := Function.update r.KeyRanks (GetKeyValue data) (some pmItem)
    made := r.made + 1 }

/-- The record goes over the one with its key, or to the end. A function on the ranking list has no
result where it follows a pointer to a deleted record. -/
def enter (r : RankTemplate α κ) (data : α) : Option (RankTemplate α κ) :=
  match r.KeyRanks (GetKeyValue data) with
  | some p => if r.Live p then some (r.write p data) else none
  | none => some (r.append GetKeyValue data)

/-- `std::sort`, which follows every pointer. -/
def sort (r : RankTemplate α κ) : Option (RankTemplate α κ) :=
  if ∀ p ∈ r.Ranks, r.Live p then some { r with Ranks := S.sort (fun p q => Cmpp (r.record p) (r.record q)) r.Ranks } else none

def forget (r : RankTemplate α κ) (p : Nat) : RankTemplate α κ :=
  { r with
    deleted := p :: r.deleted
    KeyRanks := Function.update r.KeyRanks (GetKeyValue (r.record p)) none }

/-- The loop over the surplus records. -/
def remove (r : RankTemplate α κ) : List Nat → Option (RankTemplate α κ)
  | [] => some r
  | p :: surplus => if r.Live p then (r.forget GetKeyValue p).remove surplus else none

def trim (r : RankTemplate α κ) (max_size : Nat) : Option (RankTemplate α κ) :=
  if max_size < r.Ranks.length then
    (r.remove GetKeyValue (r.Ranks.drop max_size)).map fun s => { s with Ranks := r.Ranks.take max_size }
  else some r

def OnDataChange (r : RankTemplate α κ) (max_size : Nat) (data : α) : Option (RankTemplate α κ) :=
  (r.enter GetKeyValue data).bind fun r => (r.sort S Cmpp).bind fun r => r.trim GetKeyValue max_size

def step (r : RankTemplate α κ) (call : Nat × α) : Option (RankTemplate α κ) := r.OnDataChange S Cmpp GetKeyValue call.1 call.2

/-- The two containers describe the same records, each once. -/
structure Linked (r : RankTemplate α κ) : Prop where
  listed : ∀ k p, r.KeyRanks k = some p ↔ p ∈ r.Ranks ∧ GetKeyValue (r.record p) = k
  once : r.Ranks.Nodup
  live : ∀ p ∈ r.Ranks, r.Live p
  gone : ∀ p ∈ r.deleted, p < r.made

structure Indexed (r : RankTemplate α κ) : Prop extends Linked GetKeyValue r where
  sorted : r.Ranks.Pairwise fun p q => ¬ Cmpp (r.record q) (r.record p)

section Steps

variable {S Cmpp GetKeyValue} {r s : RankTemplate α κ} {p : Nat} {front surplus : List Nat} {max_size : Nat} {data : α}

omit [Inhabited α] [DecidableEq κ] in
/-- Two records with one key are one. -/
theorem Linked.key_inj (linked : Linked GetKeyValue r) {q : Nat} (memP : p ∈ r.Ranks) (memQ : q ∈ r.Ranks)
    (same : GetKeyValue (r.record p) = GetKeyValue (r.record q)) : p = q := by
  have first := (linked.listed _ p).2 ⟨memP, same⟩
  have second := (linked.listed _ q).2 ⟨memQ, rfl⟩
  exact Option.some.inj (first.symm.trans second)

omit [Inhabited α] in
theorem Linked.enter (linked : Linked GetKeyValue r) : ∃ s, r.enter GetKeyValue data = some s ∧ Linked GetKeyValue s := by
  cases found : r.KeyRanks (GetKeyValue data) with
  | some p =>
    obtain ⟨mem, key⟩ := (linked.listed _ _).1 found
    refine ⟨r.write p data, by simp only [RankTemplate.enter, found, if_pos (linked.live p mem)], ?_, linked.once, linked.live, linked.gone⟩
    intro k q
    have same : GetKeyValue (Function.update r.record p data q) = GetKeyValue (r.record q) := by
      by_cases at_p : q = p
      · rw [at_p, Function.update_self, key]
      · rw [Function.update_of_ne at_p]
    show r.KeyRanks k = some q ↔ q ∈ r.Ranks ∧ GetKeyValue (Function.update r.record p data q) = k
    rw [same]
    exact linked.listed k q
  | none =>
    have new : r.made ∉ r.Ranks := fun mem => lt_irrefl _ (linked.live _ mem).1
    refine ⟨r.append GetKeyValue data, by simp only [RankTemplate.enter, found], ?_, ?_, ?_,
      fun q mem => Nat.lt_succ_of_lt (linked.gone q mem)⟩
    · intro k q
      show Function.update r.KeyRanks _ _ k = some q ↔ q ∈ r.Ranks ++ [r.made] ∧ GetKeyValue (Function.update r.record _ _ q) = k
      rw [List.mem_append, List.mem_singleton]
      by_cases isNew : q = r.made
      · rw [isNew, Function.update_self]
        by_cases isKey : k = GetKeyValue data
        · simp [isKey]
        · rw [Function.update_of_ne isKey, linked.listed]
          simp [new, Ne.symm isKey]
      · rw [Function.update_of_ne isNew, or_iff_left isNew, ← linked.listed]
        by_cases isKey : k = GetKeyValue data
        · rw [isKey, Function.update_self, found]
          exact iff_of_false (fun same => isNew (Option.some.inj same).symm) (by simp)
        · rw [Function.update_of_ne isKey]
    · refine List.nodup_append.2 ⟨linked.once, List.nodup_singleton _, ?_⟩
      rintro p mem q mem' rfl
      obtain rfl := List.mem_singleton.1 mem'
      exact new mem
    · intro q mem
      rcases List.mem_append.1 mem with mem | mem
      · obtain ⟨made, kept⟩ := linked.live q mem
        exact ⟨Nat.lt_succ_of_lt made, kept⟩
      · obtain rfl := List.mem_singleton.1 mem
        exact ⟨Nat.lt_succ_self _, fun mem => lt_irrefl _ (linked.gone _ mem)⟩

omit [Inhabited α] [DecidableEq κ] in
/-- The order of the records does not matter to their index. -/
theorem Linked.perm (linked : Linked GetKeyValue r) {l : List Nat} (perm : l.Perm r.Ranks) :
    Linked GetKeyValue { r with Ranks := l } := by
  refine ⟨fun k p => ?_, perm.nodup_iff.2 linked.once, fun p mem => linked.live p (perm.mem_iff.1 mem), linked.gone⟩
  show r.KeyRanks k = some p ↔ p ∈ l ∧ _
  rw [perm.mem_iff]
  exact linked.listed k p

omit [Inhabited α] [DecidableEq κ] in
theorem Linked.sort (Cmpp : α → α → Prop) [DecidableRel Cmpp] [IsStrictWeakOrder α Cmpp] (linked : Linked GetKeyValue r) :
    ∃ s, r.sort S Cmpp = some s ∧ Indexed Cmpp GetKeyValue s := by
  refine ⟨_, if_pos linked.live, linked.perm (S.perm _ _), ?_⟩
  have weak : IsStrictWeakOrder Nat fun p q => Cmpp (r.record p) (r.record q) :=
    inferInstanceAs (IsStrictWeakOrder Nat (Order.Preimage r.record Cmpp))
  exact S.sorted (fun p q => Cmpp (r.record p) (r.record q)) r.Ranks

omit [Inhabited α] in
/-- Deleting the records of `surplus` leaves an index of the others. -/
theorem Linked.remove (linked : Linked GetKeyValue { r with Ranks := front ++ surplus }) :
    ∃ s, r.remove GetKeyValue surplus = some s ∧ s.record = r.record ∧ Linked GetKeyValue { s with Ranks := front } := by
  induction surplus generalizing r with
  | nil => exact ⟨r, rfl, rfl, by simpa using linked⟩
  | cons p surplus ih =>
    have mem : p ∈ front ++ p :: surplus := by simp
    have once := List.nodup_middle.1 linked.once
    obtain ⟨outside, once⟩ := List.nodup_cons.1 once
    have less : ∀ q, q ∈ front ++ surplus ↔ q ∈ front ++ p :: surplus ∧ q ≠ p := by
      intro q
      by_cases same : q = p
      · rw [same]
        exact iff_of_false outside fun both => both.2 rfl
      · simp [same]
    have next : Linked GetKeyValue { r.forget GetKeyValue p with Ranks := front ++ surplus } := by
      refine ⟨fun k q => ?_, once, fun q memQ => ?_, fun q memQ => ?_⟩
      · show Function.update r.KeyRanks _ _ k = some q ↔ q ∈ front ++ surplus ∧ GetKeyValue (r.record q) = k
        rw [less]
        by_cases isKey : k = GetKeyValue (r.record p)
        · rw [isKey, Function.update_self]
          refine iff_of_false (by simp) ?_
          rintro ⟨⟨memQ, ne⟩, same⟩
          exact ne (linked.key_inj memQ mem same)
        · rw [Function.update_of_ne isKey]
          refine (linked.listed k q).trans (and_congr_left fun key => (and_iff_left ?_).symm)
          rintro rfl
          exact isKey key.symm
      · obtain ⟨memQ, ne⟩ := (less q).1 memQ
        obtain ⟨made, kept⟩ := linked.live q memQ
        exact ⟨made, fun gone => (List.mem_cons.1 gone).elim ne kept⟩
      · rcases List.mem_cons.1 memQ with rfl | memQ
        · exact (linked.live q mem).1
        · exact linked.gone q memQ
    obtain ⟨s, removed, same, linked'⟩ := ih next
    refine ⟨s, ?_, same, linked'⟩
    rw [RankTemplate.remove, if_pos (show r.Live p from linked.live p mem)]
    exact removed

omit [Inhabited α] [DecidableRel Cmpp] in
theorem Indexed.trim (indexed : Indexed Cmpp GetKeyValue r) (max_size : Nat) :
    ∃ s, r.trim GetKeyValue max_size = some s ∧ Indexed Cmpp GetKeyValue s ∧ s.Ranks.length ≤ max_size := by
  by_cases long : max_size < r.Ranks.length
  · have whole : Linked GetKeyValue { r with Ranks := r.Ranks.take max_size ++ r.Ranks.drop max_size } := by
      rw [List.take_append_drop]
      exact indexed.toLinked
    obtain ⟨s, removed, same, linked⟩ := whole.remove
    refine ⟨{ s with Ranks := r.Ranks.take max_size }, by rw [RankTemplate.trim, if_pos long, removed, Option.map_some],
      ⟨linked, ?_⟩, List.length_take_le _ _⟩
    show (r.Ranks.take max_size).Pairwise fun p q => ¬ Cmpp (s.record q) (s.record p)
    rw [same]
    exact indexed.sorted.sublist (List.take_sublist _ _)
  · exact ⟨r, if_neg long, indexed, by omega⟩

omit [Inhabited α] in
theorem Linked.onDataChange (Cmpp : α → α → Prop) [DecidableRel Cmpp] [IsStrictWeakOrder α Cmpp] (linked : Linked GetKeyValue r) (max_size : Nat) (data : α) :
    ∃ s, r.OnDataChange S Cmpp GetKeyValue max_size data = some s ∧ Indexed Cmpp GetKeyValue s ∧ s.Ranks.length ≤ max_size := by
  obtain ⟨s, entered, linked⟩ := linked.enter
  obtain ⟨t, sorted, indexed⟩ := linked.sort (S := S) Cmpp
  obtain ⟨u, trimmed, indexed, short⟩ := indexed.trim max_size
  refine ⟨u, ?_, indexed, short⟩
  rw [OnDataChange, entered, Option.bind_some, sorted, Option.bind_some, trimmed]

omit [DecidableEq κ] in
theorem linked_empty : Linked GetKeyValue (empty : RankTemplate α κ) where
  listed _ p := iff_of_false (Option.some_ne_none p).symm fun both => absurd both.1 List.not_mem_nil
  once := List.nodup_nil
  live _ mem := absurd mem List.not_mem_nil
  gone _ mem := absurd mem List.not_mem_nil

end Steps

/-- **The ranking list**: every sequence of calls goes through, and after it the vector and the map describe the
same records, the vector is in order and no longer than the last call allows. -/
theorem ranks_indexed [IsStrictWeakOrder α Cmpp] (calls : List (Nat × α)) : ∃ r : RankTemplate α κ,
    Runs (step S Cmpp GetKeyValue) (fun _ _ => True) empty calls r ∧ Indexed Cmpp GetKeyValue r ∧
      ∀ last ∈ calls.getLast?, r.Ranks.length ≤ last.1 := by
  induction calls using List.reverseRecOn with
  | nil =>
    refine ⟨empty, .refl, ⟨linked_empty, List.Pairwise.nil⟩, ?_⟩
    intro last mem
    cases mem
  | append_singleton calls call ih =>
    obtain ⟨r, run, indexed, -⟩ := ih
    obtain ⟨s, next, indexed, short⟩ := indexed.onDataChange (S := S) Cmpp call.1 call.2
    refine ⟨s, run.snoc trivial next, indexed, ?_⟩
    intro last mem
    rw [List.getLast?_concat] at mem
    obtain rfl := Option.some.inj mem
    exact short

/-- Scores by player: the second player comes in at the end and goes past the first, and then only one stays. -/
theorem ranks_indexed_scores : ∃ r : RankTemplate (Nat × Nat) Nat,
    Runs (step StdSort.insertion (fun a b => b.2 < a.2) Prod.fst) (fun _ _ => True) empty [(2, (7, 10)), (2, (8, 20)), (1, (7, 15))] r ∧
      (r.Ranks = [1] ∧ r.record 1 = (8, 20) ∧ r.KeyRanks 8 = some 1 ∧ r.KeyRanks 7 = none) ∧
      Indexed (fun a b => b.2 < a.2) Prod.fst r := by
  have weak : IsStrictWeakOrder (Nat × Nat) fun a b => b.2 < a.2 := {
    irrefl a := lt_irrefl a.2
    trans a b c first second := lt_trans second first
    incomp_trans a b c first second := by omega }
  obtain ⟨r, run, indexed, -⟩ := ranks_indexed StdSort.insertion (fun a b : Nat × Nat => b.2 < a.2) Prod.fst
    [(2, (7, 10)), (2, (8, 20)), (1, (7, 15))]
  obtain ⟨s, run', holds⟩ : ∃ s : RankTemplate (Nat × Nat) Nat,
      Runs (step StdSort.insertion (fun a b : Nat × Nat => b.2 < a.2) Prod.fst) (fun _ _ => True) empty
        [(2, (7, 10)), (2, (8, 20)), (1, (7, 15))] s ∧ (s.Ranks = [1] ∧ s.record 1 = (8, 20) ∧ s.KeyRanks 8 = some 1 ∧ s.KeyRanks 7 = none) := by
    apply Runs.exists_of_decide
    decide
  obtain rfl := run.unique run'
  exact ⟨r, run, holds, indexed⟩

end RankTemplate

end GameServer.Containers

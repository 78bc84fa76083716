import Mathlib.Data.List.Nodup
import Mathlib.Logic.Function.Basic

/-!
# Rings

Nodes in a ring, each with a pointer to the next, and on the ring a reader and a writer. The nodes from
the reader up to the writer are used; the writer's own node and the spare ones behind it are not.
`Ring` says so, and the rules say what becomes of the two parts when the writer or the reader goes on,
when the writer goes back to the reader, and when a node is spliced in behind the writer.
-/

namespace GameServer.Lib

variable {ν : Type} {next next' : ν → ν} {a b n reader writer : ν} {l m used spare : List ν}

/-- From `a` the pointers lead through the nodes of `l`, one after the other, to `b`. -/
def Path (next : ν → ν) : ν → List ν → ν → Prop
  | a, [], b => a = b
  | a, n :: l, b => a = n ∧ Path next (next n) l b

theorem path_append : Path next a (l ++ m) b ↔ ∃ c, Path next a l c ∧ Path next c m b := by
  induction l generalizing a with
  | nil => simp [Path]
  | cons n l ih => simp [Path, ih, and_assoc]

theorem Path.frame (path : Path next a l b) (same : ∀ n ∈ l, next' n = next n) : Path next' a l b := by
  induction l generalizing a with
  | nil => exact path
  | cons n l ih =>
    obtain ⟨at_n, rest⟩ := path
    refine ⟨at_n, ?_⟩
    rw [same n List.mem_cons_self]
    exact ih rest fun c mem => same c (List.mem_cons_of_mem n mem)

structure Ring (next : ν → ν) (reader writer : ν) (used spare : List ν) : Prop where
  filled : Path next reader used writer
  back : Path next (next writer) spare reader
  once : (used ++ writer :: spare).Nodup

namespace Ring

theorem alone (self : next a = a) : Ring next a a [] [] := ⟨rfl, self, List.nodup_singleton a⟩

theorem frame (ring : Ring next reader writer used spare) (same : ∀ n ∈ used ++ writer :: spare, next' n = next n) :
    Ring next' reader writer used spare := by
  refine ⟨ring.filled.frame fun n mem => same n (by simp [mem]), ?_, ring.once⟩
  rw [same writer (by simp)]
  exact ring.back.frame fun n mem => same n (by simp [mem])

theorem empty_iff (ring : Ring next reader writer used spare) : reader = writer ↔ used = [] := by
  have filled := ring.filled
  cases used with
  | nil => exact iff_of_true filled rfl
  | cons n used =>
    obtain ⟨rfl, -⟩ := filled
    refine iff_of_false ?_ (List.cons_ne_nil _ _)
    rintro rfl
    exact (List.nodup_cons.1 ring.once).1 (by simp)

/-- The writer is about to catch up with the reader exactly when no node is spare. -/
theorem full_iff (ring : Ring next reader writer used spare) : next writer = reader ↔ spare = [] := by
  have back := ring.back
  cases spare with
  | nil => exact iff_of_true back rfl
  | cons n spare =>
    obtain ⟨at_n, -⟩ := back
    refine iff_of_false ?_ (List.cons_ne_nil _ _)
    rw [at_n]
    rintro rfl
    have once := ring.once
    have filled := ring.filled
    cases used with
    | nil =>
      obtain rfl : n = writer := filled
      exact (List.nodup_cons.1 once).1 List.mem_cons_self
    | cons c used =>
      obtain ⟨rfl, -⟩ := filled
      exact (List.nodup_cons.1 once).1 (by simp)

/-- The writer goes on to the first spare node. -/
theorem put (ring : Ring next reader writer used (n :: spare)) : next writer = n ∧ Ring next reader n (used ++ [writer]) spare := by
  obtain ⟨at_n, back⟩ := ring.back
  refine ⟨at_n, ?_, back, by simpa using ring.once⟩
  exact path_append.2 ⟨writer, ring.filled, rfl, at_n⟩

/-- The reader goes on, and the node it leaves is spare. -/
theorem take (ring : Ring next reader writer (n :: used) spare) : reader = n ∧ Ring next (next n) writer used (spare ++ [n]) := by
  obtain ⟨at_n, filled⟩ := ring.filled
  refine ⟨at_n, filled, ?_, ?_⟩
  · exact path_append.2 ⟨reader, ring.back, at_n, rfl⟩
  · have once := ring.once
    rw [List.cons_append, List.nodup_cons] at once
    rw [← List.cons_append, ← List.append_assoc]
    exact (List.nodup_append_comm.1 (by simpa using once))

/-- The writer goes back to the reader. -/
theorem clear (ring : Ring next reader writer used spare) :
    ∃ spare', Ring next reader reader [] spare' ∧ (reader :: spare').Perm (used ++ writer :: spare) := by
  cases used with
  | nil =>
    obtain rfl : reader = writer := ring.filled
    exact ⟨spare, ring, .refl _⟩
  | cons n used =>
    obtain ⟨rfl, filled⟩ := ring.filled
    exact ⟨used ++ writer :: spare, ⟨rfl, path_append.2 ⟨writer, filled, rfl, ring.back⟩, ring.once⟩, .refl _⟩

/-- A node is spliced in behind the writer. -/
theorem grow (ring : Ring next reader writer used []) (new : n ∉ used ++ [writer]) (forth : next' writer = n)
    (back : next' n = reader) (same : ∀ c ∈ used, next' c = next c) : Ring next' reader writer used [n] := by
  refine ⟨ring.filled.frame same, ⟨forth, back⟩, ?_⟩
  have whole : used ++ [writer, n] = (used ++ [writer]) ++ [n] := by simp
  rw [whole]
  refine List.nodup_append.2 ⟨ring.once, List.nodup_singleton n, ?_⟩
  rintro c mem d memD rfl
  exact new (List.mem_singleton.1 memD ▸ mem)

end Ring

end GameServer.Lib

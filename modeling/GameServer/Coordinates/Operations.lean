import GameServer.Coordinates.Lines
import Mathlib.Data.List.Nodup

/-!
# The operations of the coordinate system

`Formed` says that the three axes list the same nodes, those whose system pointer is set, and
count them. Each operation keeps it, and sorts what it is given sorted but for the node that
it moves. `xx` may be any function.
-/

namespace GameServer.Coordinates.System

open Aoi (Axis FLT_MAX)

variable {s t : System} {L : Axis → List Node} {n : Node} {xx : Node → Axis → Coordinate}

/-- The axes list the nodes of the system, each once. -/
structure Formed (s : System) (L : Axis → List Node) : Prop where
  line : ∀ a, (s.line a).Formed (L a)
  member : ∀ a n, n ∈ L a ↔ s.inSystem n = true
  size : ∀ a, (L a).length = s.size

theorem Formed.not_mem (formed : s.Formed L) (out : s.inSystem n = false) (a : Axis) : n ∉ L a := by
  intro mem
  rw [(formed.member a n).1 mem] at out
  cases out

/-- What `update` leaves alone. -/
structure Same (s t : System) : Prop where
  inSystem : t.inSystem = s.inSystem
  removed : t.removed = s.removed
  dels : t.dels = s.dels
  delsCount : t.delsCount = s.delsCount
  releases : t.releases = s.releases
  freed : t.freed = s.freed

theorem setLines_eq (line : Axis → Line) : s.setLines (line .x) (line .y) (line .z) = { s with line := line } := by
  rw [setLines, mk.injEq]
  refine ⟨?_, rfl, rfl, rfl, rfl, rfl, rfl, rfl⟩
  funext a
  cases a <;> rfl

/-- The part of `update` for one axis. -/
def updateAxis (s : System) (xx : Node → Axis → Coordinate) (n : Node) : Axis → Option Line
  | .x => (s.line .x).updateChanged n (xx n .x) (s.size + 1)
  | .y => (s.line .y).rounds n (xx n .y) (s.size + 1) (s.size + 1)
  | .z => (s.line .z).updateChanged n (xx n .z) (s.size + 1)

theorem update_eq {line : Axis → Line} (run : ∀ a, s.updateAxis xx n a = some (line a)) :
    s.update xx n = some { s with line := fun a => (line a).setOld n (xx n a) } := by
  have x : (s.line .x).updateChanged n (xx n .x) (s.size + 1) = some (line .x) := run .x
  have y : (s.line .y).rounds n (xx n .y) (s.size + 1) (s.size + 1) = some (line .y) := run .y
  have z : (s.line .z).updateChanged n (xx n .z) (s.size + 1) = some (line .z) := run .z
  rw [update, x, Option.bind_eq_bind, Option.bind_some, y, Option.bind_some, z, Option.bind_some]
  exact congrArg some (setLines_eq fun a => (line a).setOld n (xx n a))

theorem updateAxis_formed (formed : s.Formed L) (mem : s.inSystem n = true) {a : Axis} (number : xx n a ≠ .nan)
    (sorted : (s.line a).Sorted ((L a).erase n)) : ∃ t L', s.updateAxis xx n a = some t ∧
      Line.Updated n (s.line a) (L a) t L' ∧ t.Sorted (L'.erase n) ∧
      (((xx n a).eq ((s.line a).old n) = true → (s.line a).Sorted (L a)) → t.Sorted L') := by
  have bound : (L a).length < s.size + 1 := formed.size a ▸ Nat.lt_succ_self _
  have mem' : n ∈ L a := (formed.member a n).2 mem
  cases a with
  | x => exact Line.updateChanged_formed (formed.line .x) mem' sorted number bound
  | z => exact Line.updateChanged_formed (formed.line .z) mem' sorted number bound
  | y =>
    obtain ⟨t, L', run, updated, sorted'⟩ := Line.rounds_formed (formed.line .y) mem' sorted number bound
    exact ⟨t, L', run, updated, sorted'.sublist List.erase_sublist, fun _ => sorted'⟩

theorem update_formed (formed : s.Formed L) (mem : s.inSystem n = true) (number : ∀ a, xx n a ≠ .nan)
    (sorted : ∀ a, (s.line a).Sorted ((L a).erase n)) : ∃ t L', s.update xx n = some t ∧ t.Formed L' ∧ Same s t ∧
      (∀ a, (t.line a).Sorted ((L' a).erase n)) ∧
      ∀ a, ((xx n a).eq ((s.line a).old n) = true → (s.line a).Sorted (L a)) → (t.line a).Sorted (L' a) := by
  choose line L' run updated part full using fun a => updateAxis_formed formed mem (number a) (sorted a)
  refine ⟨_, L', update_eq run, ⟨?_, ?_, ?_⟩, ⟨rfl, rfl, rfl, rfl, rfl, rfl⟩, part, full⟩
  · exact fun a => ⟨(updated a).formed.linked, (updated a).formed.number⟩
  · exact fun a m => (updated a).perm.mem_iff.trans (formed.member a m)
  · exact fun a => (updated a).perm.length_eq.trans (formed.size a)

/-- A sorted system stays sorted. -/
theorem update_sorted (formed : s.Formed L) (mem : s.inSystem n = true) (number : ∀ a, xx n a ≠ .nan)
    (sorted : ∀ a, (s.line a).Sorted (L a)) :
    ∃ t L', s.update xx n = some t ∧ t.Formed L' ∧ Same s t ∧ ∀ a, (t.line a).Sorted (L' a) := by
  obtain ⟨t, L', run, formed', same, -, full⟩ :=
    update_formed formed mem number fun a => (sorted a).sublist List.erase_sublist
  exact ⟨t, L', run, formed', same, fun a => full a fun _ => sorted a⟩

/-- What `insert` does to the rest. -/
structure Inserted (n : Node) (s t : System) : Prop where
  inSystem : t.inSystem = Function.update s.inSystem n true
  removed : t.removed = s.removed
  dels : t.dels = s.dels
  delsCount : t.delsCount = s.delsCount
  releases : t.releases = s.releases
  freed : t.freed = s.freed

theorem isEmpty_iff (formed : s.Formed L) : s.isEmpty = true ↔ ∀ a, L a = [] := by
  have first : ∀ a, (s.line a).first.isNone = true ↔ L a = [] := by
    intro a
    rw [(formed.line a).linked.first, Option.isNone_iff_eq_none, List.head?_eq_none_iff]
  rw [isEmpty, Bool.and_eq_true, Bool.and_eq_true, first, first, first]
  constructor
  · rintro ⟨⟨x, y⟩, z⟩ a
    cases a with
    | x => exact x
    | y => exact y
    | z => exact z
  · exact fun all => ⟨⟨all .x, all .y⟩, all .z⟩

theorem insert_sorted (formed : s.Formed L) (sorted : ∀ a, (s.line a).Sorted (L a)) (out : s.inSystem n = false)
    (number : ∀ a, xx n a ≠ .nan) :
    ∃ t L', s.insert xx n = some t ∧ t.Formed L' ∧ (∀ a, (t.line a).Sorted (L' a)) ∧ Inserted n s t := by
  have out' := formed.not_mem out
  by_cases empty : s.isEmpty = true
  · have none' := (isEmpty_iff formed).1 empty
    refine ⟨_, fun _ => [n], if_pos empty, ⟨?_, ?_, ?_⟩, ?_, ⟨rfl, rfl, rfl, rfl, rfl, rfl⟩⟩
    · intro a
      have line := formed.line a
      rw [none' a] at line
      exact Line.begin_formed line (number a)
    · intro a m
      have outside := formed.member a m
      rw [none' a] at outside
      by_cases same : m = n
      · simp [same]
      · simp [same, ← outside]
    · exact fun _ => rfl
    · exact fun _ => List.pairwise_singleton _ _
  · have nonempty : ∀ a, L a ≠ [] := by
      intro a nil
      apply empty
      rw [isEmpty_iff formed]
      intro b
      rw [← List.length_eq_zero_iff, formed.size b, ← formed.size a, nil, List.length_nil]
    choose line run formed' sorted' using fun a => Line.pushFront_formed (formed.line a) (sorted a) (nonempty a) (out' a)
    let u : System := { s with line := line, inSystem := Function.update s.inSystem n true, size := s.size + 1 }
    have formedU : u.Formed fun a => n :: L a := by
      refine ⟨formed', ?_, fun a => congrArg Nat.succ (formed.size a)⟩
      intro a m
      by_cases same : m = n
      · simp [u, same]
      · simp [u, same, formed.member a m]
    obtain ⟨t, L', runT, formedT, same, sortedT⟩ :=
      update_sorted formedU (Function.update_self ..) number sorted'
    refine ⟨t, L', ?_, formedT, sortedT, ?_⟩
    · rw [insert, if_neg empty, run .x, Option.bind_eq_bind, Option.bind_some, run .y, Option.bind_some, run .z,
        Option.bind_some, setLines_eq line]
      exact runT
    · exact ⟨same.inSystem, same.removed, same.dels, same.delsCount, same.releases, same.freed⟩

/-- Sorting is about the coordinates of the nodes listed. -/
theorem sorted_congr {u v : Line} {M : List Node} (same : ∀ c ∈ M, v.coord c = u.coord c) (sorted : u.Sorted M) :
    v.Sorted M := by
  refine sorted.imp_of_mem ?_
  intro c d memc memd le
  rw [same c memc, same d memd]
  exact le

theorem onRemove_coord {a : Axis} {c : Node} (other : c ≠ n ∨ a ≠ .x) :
    ((s.onRemove n).line a).coord c = (s.line a).coord c := by
  cases a with
  | x => exact Function.update_of_ne (other.resolve_right fun ne => ne rfl) _ _
  | y => rfl
  | z => rfl

theorem onRemove_old {a : Axis} : ((s.onRemove n).line a).old n = (s.line a).coord n := by
  cases a <;> exact Function.update_self ..

theorem onRemove_formed (formed : s.Formed L) : (s.onRemove n).Formed L := by
  refine ⟨?_, formed.member, formed.size⟩
  intro a
  have line := formed.line a
  refine ⟨?_, ?_⟩
  · cases a <;> exact line.linked
  · intro c mem
    by_cases other : c ≠ n ∨ a ≠ .x
    · rw [onRemove_coord other]
      exact line.number c mem
    · obtain ⟨rfl, rfl⟩ : c = n ∧ a = .x := by simpa using other
      have here : ((s.onRemove c).line .x).coord c = .num (-FLT_MAX) := Function.update_self ..
      rw [here]
      nofun

theorem num_of_eq {v : ℚ} {x : Coordinate} (same : (Coordinate.num v).eq x = true) : x = .num v := by
  cases x with
  | nan => cases same
  | num w => rw [of_decide_eq_true same]

/-- What `remove` does to the rest. -/
structure Removed (n : Node) (s t : System) : Prop where
  inSystem : t.inSystem = s.inSystem
  removed : t.removed = Function.update s.removed n true
  dels : t.dels = s.dels ++ [n]
  delsCount : t.delsCount = s.delsCount + 1
  releases : t.releases = s.releases
  freed : t.freed = s.freed

/-- A node to be removed may stand out of order, unless it goes to the end of the axes. -/
theorem remove_formed (formed : s.Formed L) (sorted : ∀ a, (s.line a).Sorted (L a)) (mem : s.inSystem n = true)
    (number : ∀ a, xx n a ≠ .nan) (once : n ∉ s.dels) : ∃ t L', s.remove xx n = some t ∧ t.Formed L' ∧ Removed n s t ∧
      (∀ a, (t.line a).Sorted ((L' a).erase n)) ∧ (xx n .x = .num (-FLT_MAX) → ∀ a, (t.line a).Sorted (L' a)) := by
  have part : ∀ a, ((s.onRemove n).line a).Sorted ((L a).erase n) := by
    intro a
    refine sorted_congr ?_ ((sorted a).sublist List.erase_sublist)
    intro c mem
    exact onRemove_coord (.inl ((formed.line a).linked.nodup.mem_erase_iff.1 mem).1)
  obtain ⟨u, L', run, formedU, same, partU, full⟩ := update_formed (onRemove_formed formed) mem number part
  have once' : n ∉ u.dels := by
    rw [same.dels]
    exact once
  refine ⟨{ u with removed := Function.update u.removed n true, dels := u.dels ++ [n], delsCount := u.delsCount + 1 },
    L', ?_, ⟨formedU.line, formedU.member, formedU.size⟩, ?_, partU, ?_⟩
  · rw [remove, run, Option.bind_eq_bind, Option.bind_some, if_neg once']
    rfl
  · refine ⟨same.inSystem, ?_, ?_, ?_, same.releases, same.freed⟩
    · exact congrArg (Function.update · n true) same.removed
    · exact congrArg (· ++ [n]) same.dels
    · exact congrArg Nat.succ same.delsCount
  · intro low a
    apply full a
    rw [onRemove_old]
    intro stay
    refine sorted_congr ?_ (sorted a)
    intro c _
    by_cases other : c ≠ n ∨ a ≠ .x
    · exact onRemove_coord other
    · obtain ⟨rfl, rfl⟩ : c = n ∧ a = .x := by simpa using other
      rw [low] at stay
      have here : ((s.onRemove c).line .x).coord c = .num (-FLT_MAX) := Function.update_self ..
      rw [here]
      exact (num_of_eq stay).symm

/-- `removeReal` takes a node of the system out. -/
theorem removeReal_formed (formed : s.Formed L) (mem : s.inSystem n = true) : ∃ t, s.removeReal n = some t ∧
    t.Formed (fun a => (L a).erase n) ∧ (∀ a, (t.line a).coord = (s.line a).coord) ∧
    t.inSystem = Function.update s.inSystem n false ∧ t.releases = s.releases ++ [n] ∧
    t.removed = s.removed ∧ t.freed = s.freed := by
  have mem' : ∀ a, n ∈ L a := fun a => (formed.member a n).2 mem
  choose line run formed' coord using fun a => Line.unlink_formed (formed.line a) (mem' a)
  let t : System := { s with
    line := line
    inSystem := Function.update s.inSystem n false
    releases := s.releases ++ [n]
    size := s.size - 1 }
  refine ⟨t, ?_, ⟨formed', ?_, ?_⟩, coord, rfl, rfl, rfl, rfl⟩
  · rw [removeReal, mem, Bool.not_true, if_neg Bool.false_ne_true, run .x, Option.bind_eq_bind, Option.bind_some, run .y,
      Option.bind_some, run .z, Option.bind_some, setLines_eq line]
    rfl
  · intro a m
    rw [(formed.line a).linked.nodup.mem_erase_iff, formed.member a m]
    by_cases same : m = n
    · simp [t, same]
    · simp [t, same]
  · intro a
    rw [List.length_erase_of_mem (mem' a), formed.size a]

/-- `removeDelNodes` takes the nodes one after the other out. -/
theorem removeReals_formed {ds : List Node} (formed : s.Formed L) (mem : ∀ n ∈ ds, s.inSystem n = true)
    (nodup : ds.Nodup) : ∃ t, ds.foldlM removeReal s = some t ∧ t.Formed (fun a => (L a).diff ds) ∧
      (∀ a, (t.line a).coord = (s.line a).coord) ∧ (∀ n, t.inSystem n = (s.inSystem n && n ∉ ds)) ∧
      t.releases = s.releases ++ ds ∧ t.removed = s.removed ∧ t.freed = s.freed := by
  induction ds generalizing s L with
  | nil => exact ⟨s, rfl, formed, fun _ => rfl, fun n => by simp, (List.append_nil _).symm, rfl, rfl⟩
  | cons d ds ih =>
    obtain ⟨once, nodup⟩ := List.nodup_cons.1 nodup
    obtain ⟨u, run, formedU, coordU, inU, releasesU, removedU, freedU⟩ := removeReal_formed formed (mem d List.mem_cons_self)
    have memU : ∀ n ∈ ds, u.inSystem n = true := by
      intro n mem'
      have apart : n ≠ d := fun same => once (same ▸ mem')
      rw [inU, Function.update_of_ne apart]
      exact mem n (List.mem_cons_of_mem d mem')
    obtain ⟨t, runT, formedT, coordT, inT, releasesT, removedT, freedT⟩ := ih formedU memU nodup
    refine ⟨t, ?_, ?_, fun a => (coordT a).trans (coordU a), ?_, ?_, removedT.trans removedU, freedT.trans freedU⟩
    · rw [List.foldlM_cons, run]
      exact runT
    · simpa only [List.diff_cons] using formedT
    · intro n
      rw [inT n, inU]
      by_cases same : n = d
      · simp [same]
      · simp [same]
    · rw [releasesT, releasesU, List.append_assoc]
      rfl

theorem freed_foldl {freed : Node → Bool} {ds : List Node} :
    ds.foldl (fun freed n => Function.update freed n true) freed n = (freed n || n ∈ ds) := by
  induction ds generalizing freed with
  | nil => simp
  | cons d ds ih =>
    rw [List.foldl_cons, ih]
    by_cases same : n = d
    · simp [same]
    · simp [same]

/-- `releaseNodes` takes the nodes to be removed out and deletes them. -/
theorem releaseNodes_formed (formed : s.Formed L) (sorted : ∀ a, (s.line a).Sorted ((L a).filter (· ∉ s.dels)))
    (count : s.delsCount = s.dels.length) (mem : ∀ n ∈ s.dels, s.inSystem n = true) (nodup : s.dels.Nodup)
    (released : s.releases = []) : ∃ t L', s.releaseNodes = some t ∧ t.Formed L' ∧ (∀ a, (t.line a).Sorted (L' a)) ∧
      (∀ n, t.inSystem n = (s.inSystem n && n ∉ s.dels)) ∧ (∀ n, t.freed n = (s.freed n || n ∈ s.dels)) ∧
      t.removed = s.removed ∧ t.dels = [] ∧ t.delsCount = 0 ∧ t.releases = [] := by
  obtain ⟨u, run, formedU, coordU, inU, releasesU, removedU, freedU⟩ := removeReals_formed formed mem nodup
  rw [released, List.nil_append] at releasesU
  have runU : s.removeDelNodes = some { u with dels := [], delsCount := 0 } := by
    rw [removeDelNodes]
    by_cases none' : s.delsCount = 0
    · have empty : s.dels = [] := List.length_eq_zero_iff.1 (count.symm.trans none')
      rw [empty] at run
      obtain rfl : s = u := Option.some.inj run
      rw [if_pos none', ← none', ← empty]
    · rw [if_neg none', run]
      rfl
  have filtered : ∀ a, (L a).diff s.dels = (L a).filter (· ∉ s.dels) :=
    fun a => (formed.line a).linked.nodup.sdiff_eq_filter
  let t : System := { u with
    dels := []
    delsCount := 0
    freed := u.releases.reverse.foldl (fun freed n => Function.update freed n true) u.freed
    releases := [] }
  have runT : s.releaseNodes = some t := by
    rw [releaseNodes, runU]
    rfl
  refine ⟨t, fun a => (L a).diff s.dels, runT, ⟨formedU.line, formedU.member, formedU.size⟩, ?_, inU, ?_, removedU,
    rfl, rfl, rfl⟩
  · intro a
    have sorted' := sorted a
    rw [← filtered a] at sorted'
    exact sorted_congr (fun c _ => congrFun (coordU a) c) sorted'
  · intro n
    have all : t.freed n = (u.freed n || n ∈ u.releases.reverse) := freed_foldl
    rw [all, freedU, releasesU]
    simp only [List.mem_reverse]

/-- What holds of the coordinate system between two operations of the space. -/
structure Good (s : System) : Prop where
  lists : ∃ L, s.Formed L ∧ ∀ a, (s.line a).Sorted (L a)
  alive : ∀ n, s.inSystem n = true → s.freed n = false
  count : s.delsCount = s.dels.length
  nodup : s.dels.Nodup
  dels : ∀ n ∈ s.dels, s.inSystem n = true
  released : s.releases = []

/-- Only nodes in the lists wait for `releaseNodes`. -/
theorem Good.not_dels (good : s.Good) (out : s.inSystem n = false) : n ∉ s.dels := by
  intro mem
  rw [good.dels n mem] at out
  cases out

theorem good_empty : empty.Good := by
  refine ⟨⟨fun _ => [], ⟨?_, ?_, fun _ => rfl⟩, fun _ => .nil⟩, nofun, rfl, .nil, nofun, rfl⟩
  · exact fun _ => ⟨⟨rfl, trivial, .nil, fun _ _ => rfl⟩, nofun⟩
  · exact fun _ _ => ⟨nofun, nofun⟩

theorem Good.same (good : s.Good) (same : Same s t) (lists : ∃ L, t.Formed L ∧ ∀ a, (t.line a).Sorted (L a)) :
    t.Good := by
  refine ⟨lists, ?_, ?_, ?_, ?_, ?_⟩
  · rw [same.inSystem, same.freed]
    exact good.alive
  · rw [same.delsCount, same.dels]
    exact good.count
  · rw [same.dels]
    exact good.nodup
  · rw [same.dels, same.inSystem]
    exact good.dels
  · exact same.releases.trans good.released

theorem Good.update (good : s.Good) (mem : s.inSystem n = true) (number : ∀ a, xx n a ≠ .nan) :
    ∃ t, s.update xx n = some t ∧ t.Good ∧ Same s t := by
  obtain ⟨L, formed, sorted⟩ := good.lists
  obtain ⟨t, L', run, formed', same, sorted'⟩ := update_sorted formed mem number sorted
  exact ⟨t, run, good.same same ⟨L', formed', sorted'⟩, same⟩

theorem Good.setOld (good : s.Good) (old : Coordinate) :
    Good { s with line := fun a => (s.line a).setOld n old } := by
  obtain ⟨L, formed, sorted⟩ := good.lists
  refine ⟨⟨L, ⟨?_, formed.member, formed.size⟩, sorted⟩, good.alive, good.count, good.nodup, good.dels, good.released⟩
  exact fun a => ⟨(formed.line a).linked, (formed.line a).number⟩

theorem Good.insert (good : s.Good) (out : s.inSystem n = false) (alive : s.freed n = false)
    (number : ∀ a, xx n a ≠ .nan) : ∃ t, s.insert xx n = some t ∧ t.Good ∧ Inserted n s t := by
  obtain ⟨L, formed, sorted⟩ := good.lists
  obtain ⟨t, L', run, formed', sorted', inserted⟩ := insert_sorted formed sorted out number
  refine ⟨t, run, ⟨⟨L', formed', sorted'⟩, ?_, ?_, ?_, ?_, inserted.releases.trans good.released⟩, inserted⟩
  · intro m mem
    rw [inserted.freed]
    by_cases same : m = n
    · exact same ▸ alive
    · rw [inserted.inSystem, Function.update_of_ne same] at mem
      exact good.alive m mem
  · rw [inserted.delsCount, inserted.dels]
    exact good.count
  · rw [inserted.dels]
    exact good.nodup
  · intro m mem
    rw [inserted.dels] at mem
    have apart : m ≠ n := by
      rintro rfl
      exact good.not_dels out mem
    rw [inserted.inSystem, Function.update_of_ne apart]
    exact good.dels m mem

theorem Good.remove (good : s.Good) (mem : s.inSystem n = true) (number : ∀ a, xx n a ≠ .nan) (once : n ∉ s.dels)
    (low : xx n .x = .num (-FLT_MAX)) : ∃ t, s.remove xx n = some t ∧ t.Good ∧ Removed n s t := by
  obtain ⟨L, formed, sorted⟩ := good.lists
  obtain ⟨t, L', run, formed', removed, -, full⟩ := remove_formed formed sorted mem number once
  refine ⟨t, run, ⟨⟨L', formed', full low⟩, ?_, ?_, ?_, ?_, removed.releases.trans good.released⟩, removed⟩
  · rw [removed.inSystem, removed.freed]
    exact good.alive
  · rw [removed.delsCount, removed.dels, List.length_append, good.count]
    rfl
  · rw [removed.dels, ← List.concat_eq_append]
    exact good.nodup.concat once
  · intro m mem'
    rw [removed.dels, List.mem_append, List.mem_singleton] at mem'
    rw [removed.inSystem]
    rcases mem' with mem' | rfl
    · exact good.dels m mem'
    · exact mem

/-- A new node is in no system. -/
theorem new_inSystem (out : s.inSystem n = false) : (s.new n).inSystem = s.inSystem :=
  Function.update_eq_self_iff.2 out.symm

theorem new_formed (formed : s.Formed L) (out : s.inSystem n = false) : (s.new n).Formed L := by
  have out' := formed.not_mem out
  refine ⟨fun a => ⟨?_, ?_⟩, ?_, formed.size⟩
  · apply (formed.line a).linked.frame
    · rfl
    · intro c mem
      have apart : c ≠ n := fun same => out' a (same ▸ mem)
      exact Function.update_of_ne apart _ _
    · intro c mem
      have apart : c ≠ n := fun same => out' a (same ▸ mem)
      exact Function.update_of_ne apart _ _
    · intro c notMem
      by_cases same : c = n
      · exact same ▸ Function.update_self ..
      · exact (Function.update_of_ne same _ _).trans ((formed.line a).linked.outside c notMem)
  · intro c mem
    have apart : c ≠ n := fun same => out' a (same ▸ mem)
    have coord : ((s.new n).line a).coord c = (s.line a).coord c := Function.update_of_ne apart _ _
    rw [coord]
    exact (formed.line a).number c mem
  · rw [new_inSystem out]
    exact formed.member

theorem new_sorted {a : Axis} {M : List Node} (out : n ∉ M) (sorted : (s.line a).Sorted M) : ((s.new n).line a).Sorted M := by
  refine sorted_congr ?_ sorted
  intro c mem
  have apart : c ≠ n := fun same => out (same ▸ mem)
  exact Function.update_of_ne apart _ _

theorem Good.new (good : s.Good) (out : s.inSystem n = false) : (s.new n).Good := by
  obtain ⟨L, formed, sorted⟩ := good.lists
  have inNew := new_inSystem out
  refine ⟨⟨L, new_formed formed out, ?_⟩, ?_, good.count, good.nodup, ?_, good.released⟩
  · exact fun a => new_sorted (formed.not_mem out a) (sorted a)
  · rw [inNew]
    exact good.alive
  · rw [inNew]
    exact good.dels

/-- An entity leaves: its node is removed, a new one `m` is made for it, and the nodes to be removed are deleted. -/
theorem Good.leave {m : Node} (good : s.Good) (mem : s.inSystem n = true) (number : ∀ a, xx n a ≠ .nan)
    (once : n ∉ s.dels) (out : s.inSystem m = false) :
    ∃ t u, s.remove xx n = some t ∧ (t.new m).releaseNodes = some u ∧ u.Good ∧ u.dels = [] ∧
      (∀ c, u.inSystem c = (s.inSystem c && c ∉ s.dels ++ [n])) ∧ ∀ c, u.freed c = (s.freed c || c ∈ s.dels ++ [n]) := by
  obtain ⟨L, formed, sorted⟩ := good.lists
  obtain ⟨t, L', run, formed', removed, part, -⟩ := remove_formed formed sorted mem number once
  have outT : t.inSystem m = false := removed.inSystem ▸ out
  have sorted' : ∀ a, ((t.new m).line a).Sorted ((L' a).filter (· ∉ (t.new m).dels)) := by
    intro a
    have gone : (L' a).filter (· ∉ t.dels) = ((L' a).erase n).filter (· ∉ t.dels) := by
      rw [(formed'.line a).linked.nodup.erase_eq_filter, List.filter_filter]
      refine List.filter_congr ?_
      intro c _
      by_cases same : c = n
      · simp [same, removed.dels]
      · simp [same]
    apply new_sorted fun mem => formed'.not_mem outT a (List.mem_of_mem_filter mem)
    have rest := (part a).sublist (List.filter_sublist (p := fun c => decide (c ∉ t.dels)))
    rw [← gone] at rest
    exact rest
  have inNew := new_inSystem outT
  have dels : (t.new m).dels = s.dels ++ [n] := removed.dels
  obtain ⟨u, L'', runU, formedU, sortedU, inU, freedU, -, delsU, countU, releasesU⟩ :=
    releaseNodes_formed (new_formed formed' outT) sorted'
      (by rw [dels, List.length_append, ← good.count]; exact removed.delsCount)
      (by
        rw [dels, inNew, removed.inSystem]
        intro c mem'
        rcases List.mem_append.1 mem' with mem' | mem'
        · exact good.dels c mem'
        · exact List.mem_singleton.1 mem' ▸ mem)
      (by rw [dels, ← List.concat_eq_append]; exact good.nodup.concat once)
      (removed.releases.trans good.released)
  rw [dels, inNew, removed.inSystem] at inU
  have freedNew : (t.new m).freed = s.freed := removed.freed
  rw [dels, freedNew] at freedU
  refine ⟨t, u, run, runU, ⟨⟨L'', formedU, sortedU⟩, ?_, ?_, ?_, ?_, releasesU⟩, delsU, inU, freedU⟩
  · intro c mem'
    rw [inU, Bool.and_eq_true, decide_eq_true_eq] at mem'
    rw [freedU, good.alive c mem'.1, Bool.false_or]
    exact decide_eq_false mem'.2
  · rw [countU, delsU]
    rfl
  · rw [delsU]
    exact .nil
  · rw [delsU]
    nofun

end GameServer.Coordinates.System

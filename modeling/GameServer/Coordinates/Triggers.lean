import GameServer.Coordinates.Space
import GameServer.Coordinates.Operations

/-!
# The nodes of the triggers

`Keeps` is the invariant of the space with respect to its nodes: which were made, which are
in the lists and which deleted, and that a boundary with a trigger lies in the lists around an
entity in the space. Boundaries that were made but not inserted yet are `pend`. Each operation
on a single node keeps it.
-/

namespace GameServer.Coordinates

open Aoi (Axis Kind FLT_MAX)

/-- The entity a node was made for. -/
def Node.id : Node → Nat
  | .entity e => e.id
  | .boundary id _ => id

/-- How many nodes had been made for it. -/
def Node.serial : Node → Nat
  | .entity e => e.serial
  | .boundary _ serial => serial

namespace Space

variable {s t : Space} {pend : List Node} {id : Nat} {kind : Kind} {n : Node}

/-- A boundary with a trigger. -/
structure Attached (s : Space) (pend : List Node) (id : Nat) (kind : Kind) (n : Node) : Prop where
  shape : ∃ serial, n = .boundary id serial ∧ serial < s.made id
  range : s.range n ≠ .nan
  kept : n ∉ s.system.dels
  placed : n ∉ pend → s.system.inSystem n = true
  inside : s.contains id = true
  origin : (s.trigger id kind).origin = s.entityNode id

structure Keeps (s : Space) (pend : List Node) : Prop where
  good : s.system.Good
  made : ∀ n, s.made n.id ≤ n.serial → s.system.inSystem n = false ∧ s.system.freed n = false
  pending : ∀ n ∈ pend, s.system.inSystem n = false ∧ s.system.freed n = false
  node : ∀ id, (s.entityNode id).id = id ∧ (s.entityNode id).serial < s.made id
  alive : ∀ id, s.system.freed (.entity (s.entityNode id)) = false ∧ .entity (s.entityNode id) ∉ s.system.dels
  origin : ∀ id kind, (s.trigger id kind).origin.id = id
  position : ∀ id, s.contains id = true → ∀ a, s.position id a ≠ .nan
  attached : ∀ n id kind, s.pRangeTrigger n = some (id, kind) → s.Attached pend id kind n
  watchers : ∀ e, ∀ n ∈ s.watcherNodes e, ∃ id kind, s.pRangeTrigger n = some (id, kind) ∧ s.entityNode id = e
  watched : ∀ e, (s.watcherNodes e).Nodup

theorem keeps_start {position : Nat → Axis → Coordinate} : (start position).Keeps [] where
  good := System.good_empty
  made _ _ := ⟨rfl, rfl⟩
  pending := nofun
  node _ := ⟨rfl, Nat.zero_lt_one⟩
  alive _ := ⟨rfl, nofun⟩
  origin _ _ := rfl
  position := nofun
  attached := nofun
  watchers := nofun
  watched _ := .nil

/-- The node that an entity has now is no other entity's. -/
theorem Keeps.entity_inj {id' : Nat} (keeps : s.Keeps pend)
    (same : Node.entity (s.entityNode id') = .entity (s.entityNode id)) : id' = id := by
  have ids := congrArg Node.id same
  rw [Node.id, Node.id, (keeps.node id').1, (keeps.node id).1] at ids
  exact ids

/-- What a node of a trigger in the space is asked for is a number. -/
theorem Keeps.xx_boundary (keeps : s.Keeps pend) (attached : s.pRangeTrigger n = some (id, kind)) (a : Axis) :
    s.xx n a ≠ .nan := by
  have bound := keeps.attached n id kind attached
  obtain ⟨serial, rfl, -⟩ := bound.shape
  have position := keeps.position id bound.inside a
  have range := bound.range
  rw [xx]
  split_ifs with removed
  · nofun
  · simp only [attached, keeps.origin id kind]
    cases pos : s.position id a with
    | nan => exact absurd pos position
    | num v =>
      cases rng : s.range (.boundary id serial) with
      | nan => exact absurd rng range
      | num w => nofun

theorem Keeps.xx_entity (keeps : s.Keeps pend) (inside : s.contains id = true) (a : Axis) :
    s.xx (.entity (s.entityNode id)) a ≠ .nan := by
  have position := keeps.position id inside a
  rw [xx, (keeps.node id).1]
  exact position

theorem xx_free {serial : Nat} (free : s.pRangeTrigger (.boundary id serial) = none) (a : Axis) :
    s.xx (.boundary id serial) a = .num (-FLT_MAX) := by
  rw [xx]
  split_ifs
  · rfl
  · simp only [free]

/-- The coordinate system changes, but in its lists only. -/
theorem Keeps.same {system : System} (keeps : s.Keeps pend) (good : system.Good) (same : System.Same s.system system) :
    (s.setSystem system).Keeps pend := by
  obtain ⟨line, inSystem, removed, size, dels, delsCount, releases, freed⟩ := system
  obtain ⟨rfl, rfl, rfl, rfl, rfl, rfl⟩ := same
  refine ⟨good, keeps.made, keeps.pending, keeps.node, keeps.alive, keeps.origin, keeps.position, ?_, keeps.watchers,
    keeps.watched⟩
  intro n id kind attached
  have bound := keeps.attached n id kind attached
  exact ⟨bound.shape, bound.range, bound.kept, bound.placed, bound.inside, bound.origin⟩

theorem Keeps.setRange {range : Coordinate} (keeps : s.Keeps pend) (number : range ≠ .nan) :
    (s.setRange n range).Keeps pend := by
  refine ⟨keeps.good, keeps.made, keeps.pending, keeps.node, keeps.alive, keeps.origin, keeps.position, ?_,
    keeps.watchers, keeps.watched⟩
  intro m id kind attached
  have bound := keeps.attached m id kind attached
  refine ⟨bound.shape, ?_, bound.kept, bound.placed, bound.inside, bound.origin⟩
  by_cases same : m = n
  · have here : (s.setRange n range).range m = range := same ▸ Function.update_self ..
    rw [here]
    exact number
  · have there : (s.setRange n range).range m = s.range m := Function.update_of_ne same _ _
    rw [there]
    exact bound.range

theorem trigger_setTrigger {t : Trigger} {id' : Nat} {kind' : Kind} :
    (s.setTrigger id kind t).trigger id' kind' = if id' = id ∧ kind' = kind then t else s.trigger id' kind' := by
  by_cases sameId : id' = id
  · subst sameId
    by_cases sameKind : kind' = kind
    · simp [setTrigger, sameKind]
    · simp [setTrigger, sameKind]
  · simp [setTrigger, sameId]

theorem Keeps.setTrigger {t : Trigger} (keeps : s.Keeps pend) (around : t.origin.id = id)
    (apart : t.origin = (s.trigger id kind).origin ∨ ∀ n, s.pRangeTrigger n ≠ some (id, kind)) :
    (s.setTrigger id kind t).Keeps pend := by
  refine ⟨keeps.good, keeps.made, keeps.pending, keeps.node, keeps.alive, ?_, keeps.position, ?_, keeps.watchers,
    keeps.watched⟩
  · intro id' kind'
    rw [trigger_setTrigger]
    split_ifs with same
    · rw [same.1]
      exact around
    · exact keeps.origin id' kind'
  · intro n id' kind' attached
    have bound := keeps.attached n id' kind' attached
    refine ⟨bound.shape, bound.range, bound.kept, bound.placed, bound.inside, ?_⟩
    rw [trigger_setTrigger]
    split_ifs with same
    · obtain ⟨rfl, rfl⟩ := same
      rcases apart with origin | none'
      · rw [origin]
        exact bound.origin
      · exact absurd attached (none' n)
    · exact bound.origin

/-- What an operation on a single boundary leaves alone. -/
structure Rest (s t : Space) : Prop where
  position : t.position = s.position
  entityNode : t.entityNode = s.entityNode
  aoiRadius : t.aoiRadius = s.aoiRadius
  trigger : t.trigger = s.trigger
  contains : ∀ id, t.contains id = s.contains id

/-- `CoordinateNode::update` of a node in the lists. -/
theorem Keeps.updateNode (keeps : s.Keeps pend) (mem : s.system.inSystem n = true) (number : ∀ a, s.xx n a ≠ .nan) :
    ∃ t, s.updateNode n = some t ∧ t.Keeps pend ∧ Rest s t ∧ t.pRangeTrigger = s.pRangeTrigger := by
  obtain ⟨system, run, good, same⟩ := keeps.good.update mem number
  refine ⟨s.setSystem system, ?_, keeps.same good same, ⟨rfl, rfl, rfl, rfl, fun _ => congrFun same.inSystem _⟩, rfl⟩
  rw [Space.updateNode, System.updateNode, keeps.good.alive n mem, mem, if_neg Bool.false_ne_true, if_pos rfl, run]
  rfl

/-- A boundary in the lists gets a range and goes to its place. -/
theorem Keeps.moveBoundary {range : Coordinate} (keeps : s.Keeps pend) (attached : s.pRangeTrigger n = some (id, kind))
    (placed : n ∉ pend) (number : range ≠ .nan) : ∃ t, s.moveBoundary range (some n) = some t ∧ t.Keeps pend ∧
      Rest s t ∧ t.pRangeTrigger = s.pRangeTrigger := by
  have keeps' := keeps.setRange (n := n) number
  obtain ⟨t, run, after, rest, same⟩ :=
    keeps'.updateNode ((keeps'.attached n id kind attached).placed placed) (keeps'.xx_boundary attached)
  exact ⟨t, run, after, ⟨rest.position, rest.entityNode, rest.aoiRadius, rest.trigger, rest.contains⟩, same⟩

/-- The same in `install`, where its old coordinates are set too. -/
theorem Keeps.extend {range : Coordinate} (keeps : s.Keeps pend) (old : Coordinate)
    (attached : s.pRangeTrigger n = some (id, kind)) (placed : n ∉ pend) (number : range ≠ .nan) : ∃ t, s.extend n old range = some t ∧ t.Keeps pend ∧ Rest s t ∧
      t.pRangeTrigger = s.pRangeTrigger := by
  have keeps' := keeps.same (keeps.good.setOld (n := n) old) ⟨rfl, rfl, rfl, rfl, rfl, rfl⟩
  obtain ⟨t, run, after, rest, same⟩ := keeps'.moveBoundary attached placed number
  exact ⟨t, run, after, ⟨rest.position, rest.entityNode, rest.aoiRadius, rest.trigger, rest.contains⟩, same⟩

/-- A node that was not made yet has no trigger. -/
theorem Keeps.unmade {serial : Nat} (keeps : s.Keeps pend) (late : s.made id ≤ serial) :
    s.pRangeTrigger (.boundary id serial) = none := by
  cases attached : s.pRangeTrigger (.boundary id serial) with
  | none => rfl
  | some o =>
    obtain ⟨serial', same, less⟩ := (keeps.attached _ o.1 o.2 attached).shape
    obtain ⟨rfl, rfl⟩ := Node.boundary.inj same
    exact absurd less (not_lt_of_ge late)

/-- The count goes up when a node is made. -/
theorem made_le (s : Space) (id id' : Nat) : s.made id' ≤ Function.update s.made id (s.made id + 1) id' := by
  rw [Function.update_apply]
  split_ifs with same
  · rw [same]
    exact Nat.le_succ _
  · exact le_rfl

theorem made_newBoundary {id' : Nat} :
    (s.newBoundary id kind).made id' = if id' = id then s.made id + 1 else s.made id' := Function.update_apply ..

theorem contains_newBoundary (fresh : s.system.inSystem (.boundary id (s.made id)) = false) {id' : Nat} :
    (s.newBoundary id kind).contains id' = s.contains id' :=
  congrFun (System.new_inSystem fresh) _

theorem watcherNodes_newBoundary {e : EntityNode} {m : Node} (mem : m ∈ (s.newBoundary id kind).watcherNodes e) :
    m ∈ s.watcherNodes e ∨ m = .boundary id (s.made id) ∧ e = (s.trigger id kind).origin := by
  by_cases here : e = (s.trigger id kind).origin
  · subst here
    simp only [newBoundary, Function.update_self] at mem
    split_ifs at mem with known
    · exact .inl mem
    · rcases List.mem_append.1 mem with mem | mem
      · exact .inl mem
      · exact .inr ⟨List.mem_singleton.1 mem, rfl⟩
  · simp only [newBoundary, Function.update_of_ne here] at mem
    exact .inl mem

/-- `new RangeTriggerNode`. -/
theorem Keeps.newBoundary (keeps : s.Keeps pend) (inside : s.contains id = true)
    (origin : (s.trigger id kind).origin = s.entityNode id) :
    (s.newBoundary id kind).Keeps (.boundary id (s.made id) :: pend) := by
  have fresh := keeps.made (.boundary id (s.made id)) le_rfl
  have inNew : (s.newBoundary id kind).system.inSystem = s.system.inSystem := System.new_inSystem fresh.1
  have made : ∀ id', s.made id' ≤ (s.newBoundary id kind).made id' := s.made_le id
  refine ⟨keeps.good.new fresh.1, ?_, ?_, ?_, keeps.alive, keeps.origin, ?_, ?_, ?_, ?_⟩
  · intro m older
    rw [inNew]
    exact keeps.made m (le_trans (made m.id) older)
  · intro m mem
    rw [inNew]
    rcases List.mem_cons.1 mem with rfl | mem
    · exact fresh
    · exact keeps.pending m mem
  · intro id'
    exact ⟨(keeps.node id').1, lt_of_lt_of_le (keeps.node id').2 (made id')⟩
  · intro id' inside' a
    rw [contains_newBoundary fresh.1] at inside'
    exact keeps.position id' inside' a
  · intro m id' kind' attached
    by_cases here : m = .boundary id (s.made id)
    · subst here
      have attached' : some (id, kind) = some (id', kind') := by simpa [Space.newBoundary] using attached
      obtain ⟨rfl, rfl⟩ := Prod.mk.inj (Option.some.inj attached')
      refine ⟨⟨s.made id, rfl, ?_⟩, ?_, ?_, ?_, ?_, origin⟩
      · rw [made_newBoundary, if_pos rfl]
        exact Nat.lt_succ_self _
      · simp [Space.newBoundary]
      · exact keeps.good.not_dels fresh.1
      · exact fun notPend => absurd List.mem_cons_self notPend
      · rw [contains_newBoundary fresh.1]
        exact inside
    · have attached' : s.pRangeTrigger m = some (id', kind') := by simpa [Space.newBoundary, here] using attached
      have bound := keeps.attached m id' kind' attached'
      obtain ⟨serial, shape, less⟩ := bound.shape
      refine ⟨⟨serial, shape, lt_of_lt_of_le less (made id')⟩, ?_, bound.kept, ?_, ?_, bound.origin⟩
      · simpa [Space.newBoundary, here] using bound.range
      · intro notPend
        rw [inNew]
        exact bound.placed fun mem => notPend (List.mem_cons_of_mem _ mem)
      · rw [contains_newBoundary fresh.1]
        exact bound.inside
  · intro e m mem
    rcases watcherNodes_newBoundary mem with mem | ⟨rfl, rfl⟩
    · obtain ⟨id', kind', attached, node⟩ := keeps.watchers e m mem
      have here : m ≠ .boundary id (s.made id) := by
        rintro rfl
        rw [keeps.unmade le_rfl] at attached
        cases attached
      exact ⟨id', kind', by simpa [Space.newBoundary, here] using attached, node⟩
    · exact ⟨id, kind, by simp [Space.newBoundary], origin.symm⟩
  · intro e
    by_cases here : e = (s.trigger id kind).origin
    · subst here
      simp only [Space.newBoundary, Function.update_self]
      split_ifs with known
      · exact keeps.watched _
      · rw [← List.concat_eq_append]
        exact (keeps.watched _).concat known
    · simp only [Space.newBoundary, Function.update_of_ne here]
      exact keeps.watched e

/-- What an inserted node changes. -/
theorem Keeps.inserted {system : System} {pend' : List Node} (keeps : s.Keeps pend) (good : system.Good)
    (inserted : System.Inserted n s.system system) (old : n.serial < s.made n.id)
    (pending : ∀ m ∈ pend', m ≠ n ∧ m ∈ pend) (rest : ∀ m ∈ pend, m ≠ n → m ∈ pend')
    (position : ∀ id, n = .entity (s.entityNode id) → ∀ a, s.position id a ≠ .nan) :
    (s.setSystem system).Keeps pend' := by
  have inSystem : ∀ m, m ≠ n → system.inSystem m = s.system.inSystem m := by
    intro m ne
    rw [inserted.inSystem, Function.update_of_ne ne]
  have stays : ∀ m, s.system.inSystem m = true → system.inSystem m = true := by
    intro m mem
    by_cases same : m = n
    · rw [same, inserted.inSystem, Function.update_self]
    · rw [inSystem m same]
      exact mem
  have freed : (s.setSystem system).system.freed = s.system.freed := inserted.freed
  have dels : (s.setSystem system).system.dels = s.system.dels := inserted.dels
  refine ⟨good, ?_, ?_, keeps.node, ?_, keeps.origin, ?_, ?_, keeps.watchers, keeps.watched⟩
  · intro m fresh
    have apart : m ≠ n := by
      rintro rfl
      exact absurd fresh (not_le_of_gt old)
    have out := keeps.made m fresh
    exact ⟨(inSystem m apart).trans out.1, (congrFun freed m).trans out.2⟩
  · intro m mem
    obtain ⟨apart, mem⟩ := pending m mem
    have out := keeps.pending m mem
    exact ⟨(inSystem m apart).trans out.1, (congrFun freed m).trans out.2⟩
  · intro id
    rw [freed, dels]
    exact keeps.alive id
  · intro id inside a
    by_cases here : n = .entity (s.entityNode id)
    · exact position id here a
    · have inside' : s.contains id = true := (inSystem _ (Ne.symm here)).symm.trans inside
      exact keeps.position id inside' a
  · intro m id kind attached
    have bound := keeps.attached m id kind attached
    refine ⟨bound.shape, bound.range, ?_, ?_, stays _ bound.inside, bound.origin⟩
    · rw [dels]
      exact bound.kept
    · intro notPend
      by_cases same : m = n
      · rw [same]
        exact (congrFun inserted.inSystem n).trans (Function.update_self ..)
      · exact stays m (bound.placed fun mem => notPend (rest m mem same))

/-- `insert` of a boundary that was made. -/
theorem Keeps.insertBoundary (keeps : s.Keeps pend) (attached : s.pRangeTrigger n = some (id, kind)) (waits : n ∈ pend) :
    ∃ t, s.insert n = some t ∧ t.Keeps (pend.filter (· ≠ n)) ∧ Rest s t ∧ t.pRangeTrigger = s.pRangeTrigger := by
  obtain ⟨out, alive⟩ := keeps.pending n waits
  obtain ⟨serial, shape, less⟩ := (keeps.attached n id kind attached).shape
  obtain ⟨system, run, good, inserted⟩ := keeps.good.insert out alive (keeps.xx_boundary attached)
  refine ⟨s.setSystem system, ?_, keeps.inserted good inserted ?_ ?_ ?_ ?_, ⟨rfl, rfl, rfl, rfl, ?_⟩, rfl⟩
  · rw [Space.insert, run]
    rfl
  · rw [shape]
    exact less
  · intro m mem
    rw [List.mem_filter, decide_eq_true_eq] at mem
    exact mem.symm
  · intro m mem ne
    exact List.mem_filter.2 ⟨mem, decide_eq_true ne⟩
  · intro id' same
    rw [shape] at same
    cases same
  · intro id'
    have apart : .entity (s.entityNode id') ≠ n := by
      rw [shape]
      nofun
    exact (congrFun inserted.inSystem _).trans (Function.update_of_ne apart _ _)

/-- `insert` of the node of an entity that enters the space. -/
theorem Keeps.insertEntity (keeps : s.Keeps []) (out : s.contains id = false) (position : ∀ a, s.position id a ≠ .nan) :
    ∃ system, s.insert (.entity (s.entityNode id)) = some (s.setSystem system) ∧ (s.setSystem system).Keeps [] ∧
      System.Inserted (.entity (s.entityNode id)) s.system system := by
  have number : ∀ a, s.xx (.entity (s.entityNode id)) a ≠ .nan := by
    intro a
    rw [xx, (keeps.node id).1]
    exact position a
  obtain ⟨system, run, good, inserted⟩ := keeps.good.insert out (keeps.alive id).1 number
  refine ⟨system, ?_, keeps.inserted good inserted ?_ nofun nofun ?_, inserted⟩
  · rw [Space.insert, run]
    rfl
  · have node := keeps.node id
    rw [Node.id, Node.serial, node.1]
    exact node.2
  · intro id' same
    rw [← keeps.entity_inj same]
    exact position

/-- A boundary that is uninstalled watches no node any more. -/
theorem Keeps.watcherNodes_uninstall {e : EntityNode} {m : Node} (keeps : s.Keeps pend)
    (attached : s.pRangeTrigger n = some (id, kind)) (mem : m ∈ (s.onTriggerUninstall id kind n).watcherNodes e) :
    m ∈ s.watcherNodes e ∧ m ≠ n := by
  have origin := (keeps.attached n id kind attached).origin
  by_cases here : e = (s.trigger id kind).origin
  · subst here
    simp only [onTriggerUninstall, Function.update_self] at mem
    obtain ⟨apart, mem⟩ := (keeps.watched _).mem_erase_iff.1 mem
    exact ⟨mem, apart⟩
  · simp only [onTriggerUninstall, Function.update_of_ne here] at mem
    refine ⟨mem, ?_⟩
    rintro rfl
    obtain ⟨id', kind', attached', node⟩ := keeps.watchers e m mem
    rw [attached] at attached'
    obtain ⟨rfl, rfl⟩ := Prod.mk.inj (Option.some.inj attached')
    exact here (node.symm.trans origin.symm)

/-- `uninstall` of a boundary: it has no trigger any more and will be deleted. -/
theorem Keeps.uninstallBoundary (keeps : s.Keeps []) (attached : s.pRangeTrigger n = some (id, kind)) :
    ∃ t, s.uninstallBoundary id kind (some n) = some t ∧ t.Keeps [] ∧ Rest s t ∧
      ∀ m, t.pRangeTrigger m = if m = n then none else s.pRangeTrigger m := by
  have bound := keeps.attached n id kind attached
  obtain ⟨serial, shape, less⟩ := bound.shape
  have mem := bound.placed List.not_mem_nil
  have low : ∀ a, (s.onTriggerUninstall id kind n).xx n a = .num (-FLT_MAX) := by
    intro a
    subst shape
    exact xx_free (Function.update_self ..) a
  have number : ∀ a, (s.onTriggerUninstall id kind n).xx n a ≠ .nan := by
    intro a
    rw [low]
    nofun
  obtain ⟨system, run, good, removed⟩ := keeps.good.remove mem number bound.kept (low .x)
  have mine : ∀ m, (s.onTriggerUninstall id kind n).pRangeTrigger m = if m = n then none else s.pRangeTrigger m :=
    fun m => Function.update_apply ..
  have apart : ∀ {m id' kind'}, (s.onTriggerUninstall id kind n).pRangeTrigger m = some (id', kind') →
      m ≠ n ∧ s.pRangeTrigger m = some (id', kind') := by
    intro m id' kind' attached'
    rw [mine] at attached'
    split_ifs at attached' with same
    exact ⟨same, attached'⟩
  have inSystem : ((s.onTriggerUninstall id kind n).setSystem system).system.inSystem = s.system.inSystem := removed.inSystem
  have freed : ((s.onTriggerUninstall id kind n).setSystem system).system.freed = s.system.freed := removed.freed
  have dels : ∀ m, m ≠ n → m ∉ s.system.dels → m ∉ system.dels := by
    intro m ne notMem
    rw [removed.dels, List.mem_append, List.mem_singleton]
    exact not_or.2 ⟨notMem, ne⟩
  have contains : ∀ id', ((s.onTriggerUninstall id kind n).setSystem system).contains id' = s.contains id' :=
    fun id' => congrFun inSystem _
  refine ⟨(s.onTriggerUninstall id kind n).setSystem system, ?_,
    ⟨good, ?_, nofun, keeps.node, ?_, keeps.origin, ?_, ?_, ?_, ?_⟩, ⟨rfl, rfl, rfl, rfl, contains⟩,
    mine⟩
  · rw [Space.uninstallBoundary, if_pos mem]
    have run' : (s.onTriggerUninstall id kind n).system.remove (s.onTriggerUninstall id kind n).xx n = some system := run
    simp only [run']
    rfl
  · rw [inSystem, freed]
    exact keeps.made
  · intro id'
    rw [freed]
    refine ⟨(keeps.alive id').1, dels _ ?_ (keeps.alive id').2⟩
    rw [shape]
    nofun
  · intro id' inside
    rw [contains] at inside
    exact keeps.position id' inside
  · intro m id' kind' attached'
    obtain ⟨ne, attached'⟩ := apart attached'
    have bound' := keeps.attached m id' kind' attached'
    refine ⟨bound'.shape, bound'.range, dels m ne bound'.kept, ?_, ?_, bound'.origin⟩
    · rw [inSystem]
      exact bound'.placed
    · rw [contains]
      exact bound'.inside
  · intro e m mem'
    obtain ⟨mem', ne⟩ := keeps.watcherNodes_uninstall attached mem'
    obtain ⟨id', kind', attached', node⟩ := keeps.watchers e m mem'
    refine ⟨id', kind', ?_, node⟩
    exact (mine m).trans ((if_neg ne).trans attached')
  · intro e
    by_cases here : e = (s.trigger id kind).origin
    · subst here
      simp only [onTriggerUninstall, setSystem, Function.update_self]
      exact (keeps.watched _).erase n
    · simp only [onTriggerUninstall, setSystem, Function.update_of_ne here]
      exact keeps.watched e

end Space

end GameServer.Coordinates

import GameServer.Coordinates.Spaces

/-!
# The coordinate lists stay well formed

In every run of the space the three lists are linked in both directions, hold the same nodes
and are sorted, and no operation hangs, unless a coordinate is no number or a trigger is
installed around a node that was deleted. `setAoiRadius` does the latter: it installs a trigger
where it was installed last, and an entity that has left the space since has another node.
-/

namespace GameServer.Coordinates

open Aoi (Axis Kind FLT_MAX)
open Lib (Runs)

namespace Space

variable {s t : Space} {id : Nat} {kind : Kind} {n : Node}

/-- The fields that the nodes do not depend on. -/
theorem Inv.setFields {position : Nat → Axis → Coordinate} {aoiRadius : Nat → Coordinate} (inv : s.Inv)
    (number : ∀ id, s.contains id = true → ∀ a, position id a ≠ .nan) :
    Inv { s with position := position, aoiRadius := aoiRadius } := by
  obtain ⟨keeps, holds⟩ := inv
  refine ⟨⟨keeps.good, keeps.made, keeps.pending, keeps.node, keeps.alive, keeps.origin, number, ?_,
    keeps.watchers, keeps.watched⟩, holds⟩
  intro n id kind attached
  have bound := keeps.attached n id kind attached
  exact ⟨bound.shape, bound.range, bound.kept, bound.placed, bound.inside, bound.origin⟩

theorem Inv.setRadius (inv : s.Inv) (id : Nat) (radius : Coordinate) : (s.setRadius id radius).Inv :=
  inv.setFields inv.keeps.position

/-- Where `setAoiRadius` installs a trigger it is around the node of the entity. -/
theorem Inv.installMissing (inv : s.Inv) (id : Nat) (kind : Kind)
    (ready : s.contains id = true → (s.trigger id kind).isInstalled = true ∨
      (s.trigger id kind).origin = s.entityNode id ∧ (s.trigger id kind).range ≠ .nan) :
    ∃ t, s.installMissing id kind = some t ∧ t.Inv ∧ Aside id kind s t := by
  rw [Space.installMissing]
  split_ifs with missing
  · obtain ⟨missing, inside⟩ := missing
    rw [Bool.not_eq_true'] at missing
    rcases ready inside with installed | ⟨origin, number⟩
    · rw [missing] at installed
      cases installed
    · exact inv.install missing inside origin number
  · exact ⟨s, rfl, inv, .refl⟩

/-- The kinds of trigger that `setAoiRadius` has installed. -/
def Installs (radius hyst : Coordinate) (kind : Kind) : Prop :=
  (Coordinate.num 512).lt (radius.add hyst) = false ∧ (Coordinate.num 0).lt radius = true ∧
    (kind = .hysteresis → hundredth.lt hyst = true)

theorem number_of_lt {v : ℚ} {x : Coordinate} (less : (Coordinate.num v).lt x = true) : x ≠ .nan := by
  rintro rfl
  cases less

theorem add_number {x y : Coordinate} (first : x ≠ .nan) (second : y ≠ .nan) : x.add y ≠ .nan := by
  cases x with
  | nan => exact absurd rfl first
  | num v =>
    cases y with
    | nan => exact absurd rfl second
    | num w => nofun

/-- The trigger is updated, and installed where it is missing. -/
theorem Inv.updateAndInstall {xz : Coordinate} (inv : s.Inv) (number : xz ≠ .nan)
    (anchored : s.contains id = true →
      (s.trigger id kind).isInstalled = true ∨ (s.trigger id kind).origin = s.entityNode id) :
    ∃ t u, s.updateTrigger id kind xz = some t ∧ t.installMissing id kind = some u ∧ u.Inv ∧ Aside id kind s u := by
  obtain ⟨t, run, invT, aside, trigger⟩ := inv.updateTrigger id kind xz fun _ => number
  obtain ⟨u, runU, invU, asideU⟩ := invT.installMissing id kind (by
    rw [aside.contains, trigger, aside.entityNode]
    intro inside
    exact (anchored inside).imp_right fun origin => ⟨origin, fabs_number number⟩)
  exact ⟨t, u, run, runU, invU, aside.trans asideU⟩

theorem Inv.setAoiRadius {radius hyst : Coordinate} (inv : s.Inv)
    (number : (Coordinate.num 0).lt radius = true → (s.trigger id .hysteresis).isInstalled = true → hyst ≠ .nan)
    (anchored : s.contains id = true → ∀ kind, Installs radius hyst kind →
      (s.trigger id kind).isInstalled = true ∨ (s.trigger id kind).origin = s.entityNode id) :
    ∃ t, s.setAoiRadius id radius hyst = some t ∧ t.Inv := by
  by_cases large : (Coordinate.num 512).lt (radius.add hyst) = true
  · exact ⟨s.setRadius id (.num (512 - 5)), if_pos large, inv.setRadius id _⟩
  · rw [Space.setAoiRadius, if_neg large]
    by_cases positive : (Coordinate.num 0).lt radius = true
    · rw [if_pos positive]
      have radius' := number_of_lt positive
      have small := Bool.eq_false_of_not_eq_true large
      obtain ⟨s₁, s₂, run₁, run₂, inv₂, aside₂⟩ := (inv.setRadius id radius).updateAndInstall radius' fun inside =>
        anchored inside .aoi ⟨small, positive, nofun⟩
      have trigger : s₂.trigger id .hysteresis = s.trigger id .hysteresis := aside₂.trigger id .hysteresis (by simp)
      rw [run₁, Option.bind_eq_bind, Option.bind_some, run₂, Option.bind_some]
      by_cases wide : hundredth.lt hyst = true
      · obtain ⟨s₃, s₄, run₃, run₄, inv₄, -⟩ := inv₂.updateAndInstall (add_number (number_of_lt wide) radius') (by
          rw [trigger, aside₂.entityNode, aside₂.contains]
          exact fun inside => anchored inside .hysteresis ⟨small, positive, fun _ => wide⟩)
        refine ⟨s₄, ?_, inv₄⟩
        rw [run₃, Option.bind_some, if_pos wide]
        exact run₄
      · obtain ⟨s₃, run₃, inv₃, -⟩ := inv₂.updateTrigger id .hysteresis (hyst.add radius) (by
          rw [trigger]
          exact fun installed => add_number (number positive installed) radius')
        refine ⟨s₃, ?_, inv₃⟩
        rw [run₃, Option.bind_some, if_neg wide]
    · rw [if_neg positive]
      obtain ⟨t, run, invT, -⟩ := (inv.setRadius id radius).uninstallAOITrigger id
      exact ⟨t, run, invT⟩

/-- `addEntityAndEnterWorld`. -/
theorem Inv.addEntityAndEnterWorld (inv : s.Inv) (out : s.contains id = false) (position : ∀ a, s.position id a ≠ .nan)
    (number : ¬ (s.aoiRadius id).le (.num 0) = true → ∀ kind, (s.trigger id kind).range ≠ .nan) :
    ∃ t, s.addEntityAndEnterWorld id = some t ∧ t.Inv := by
  obtain ⟨system, run, keeps, inserted⟩ := inv.keeps.insertEntity out position
  have inside : (s.setSystem system).contains id = true := (congrFun inserted.inSystem _).trans (Function.update_self ..)
  have inv₁ : (s.setSystem system).Inv := ⟨keeps, inv.holds⟩
  obtain ⟨t, runT, invT⟩ := inv₁.installAOITrigger inside number
  refine ⟨t, ?_, invT⟩
  rw [Space.addEntityAndEnterWorld, run]
  exact runT

/-- The watching nodes are updated one after the other. -/
theorem Inv.updateNodes (inv : s.Inv) (ns : List Node)
    (attached : ∀ n ∈ ns, ∃ id kind, s.pRangeTrigger n = some (id, kind)) :
    ∃ t, ns.foldlM Space.updateNode s = some t ∧ t.Inv := by
  induction ns generalizing s with
  | nil => exact ⟨s, rfl, inv⟩
  | cons n ns ih =>
    obtain ⟨id, kind, here⟩ := attached n List.mem_cons_self
    obtain ⟨s₁, run₁, keeps₁, rest₁, mine₁⟩ := inv.keeps.updateNode
      ((inv.keeps.attached n id kind here).placed List.not_mem_nil) (inv.keeps.xx_boundary here)
    obtain ⟨t, run, invT⟩ := ih (inv.rest keeps₁ rest₁ mine₁) (by
      rw [mine₁]
      exact fun m mem => attached m (List.mem_cons_of_mem n mem))
    refine ⟨t, ?_, invT⟩
    rw [List.foldlM_cons, run₁]
    exact run

theorem moved_eq {old pos : Axis → Coordinate} : moved old pos = old ∨ moved old pos = pos := by
  unfold moved
  split
  · split_ifs
    · exact .inl rfl
    · exact .inr rfl
  · exact .inr rfl

/-- `Entity::position` and `EntityCoordinateNode::update`. -/
theorem Inv.moveEntity {pos : Axis → Coordinate} (inv : s.Inv) (number : s.contains id = true → ∀ a, pos a ≠ .nan) :
    ∃ t, s.moveEntity id pos = some t ∧ t.Inv := by
  have inv₁ : Inv { s with position := Function.update s.position id (moved (s.position id) pos) } := by
    apply inv.setFields
    intro id' inside a
    by_cases same : id' = id
    · subst same
      rw [Function.update_self]
      rcases @moved_eq (s.position id') pos with old | new
      · rw [old]
        exact inv.keeps.position id' inside a
      · rw [new]
        exact number inside a
    · rw [Function.update_of_ne same]
      exact inv.keeps.position id' inside a
  rw [Space.moveEntity]
  generalize { s with position := Function.update s.position id (moved (s.position id) pos) } = s₁ at *
  obtain ⟨s₂, run₂, inv₂, node⟩ : ∃ s₂, s₁.updateNode (.entity (s₁.entityNode id)) = some s₂ ∧ s₂.Inv ∧
      s₂.entityNode = s₁.entityNode := by
    cases inside : s₁.contains id with
    | true =>
      obtain ⟨s₂, run, keeps, rest, mine⟩ := inv₁.keeps.updateNode inside (inv₁.keeps.xx_entity inside)
      exact ⟨s₂, run, inv₁.rest keeps rest mine, rest.entityNode⟩
    | false =>
      refine ⟨s₁, ?_, inv₁, rfl⟩
      have out : s₁.system.inSystem (.entity (s₁.entityNode id)) = false := inside
      rw [Space.updateNode, System.updateNode, (inv₁.keeps.alive id).1, out]
      rfl
  obtain ⟨t, run, invT⟩ := inv₂.updateNodes (s₂.watcherNodes (s₁.entityNode id)) (by
    intro n mem
    obtain ⟨id', kind', attached, -⟩ := inv₂.keeps.watchers _ n mem
    exact ⟨id', kind', attached⟩)
  refine ⟨t, ?_, invT⟩
  simp only [run₂, Option.bind_eq_bind, Option.bind_some]
  exact run

/-- The entity has a new node, and the coordinate system is another one. -/
def renew (s : Space) (id : Nat) (system : System) : Space :=
  { s with
    system := system
    made := Function.update s.made id (s.made id + 1)
    entityNode := Function.update s.entityNode id ⟨id, s.made id⟩
    watcherNodes := Function.update s.watcherNodes ⟨id, s.made id⟩ [] }

section Renew

variable {system : System} {id' : Nat}

theorem renew_system : (s.renew id system).system = system := rfl

theorem renew_made : s.made id' ≤ (s.renew id system).made id' := s.made_le id id'

theorem renew_made_self : (s.renew id system).made id = s.made id + 1 := Function.update_self ..

theorem renew_entityNode_self : (s.renew id system).entityNode id = ⟨id, s.made id⟩ := Function.update_self ..

theorem renew_entityNode (other : id' ≠ id) : (s.renew id system).entityNode id' = s.entityNode id' :=
  Function.update_of_ne other _ _

theorem renew_watcherNodes (e : EntityNode) :
    (s.renew id system).watcherNodes e = [] ∨ (s.renew id system).watcherNodes e = s.watcherNodes e := by
  by_cases new : e = ⟨id, s.made id⟩
  · exact .inl (new ▸ Function.update_self ..)
  · exact .inr (Function.update_of_ne new _ _)

/-- What was not in the lists is not deleted with the node of the entity. -/
theorem Keeps.not_deleted (keeps : s.Keeps []) (inside : s.contains id = true) (out : s.system.inSystem n = false) :
    n ∉ s.system.dels ++ [.entity (s.entityNode id)] := by
  rw [List.mem_append, List.mem_singleton]
  refine not_or.2 ⟨keeps.good.not_dels out, ?_⟩
  rintro rfl
  exact Bool.false_ne_true (out.symm.trans inside)

/-- The node of an entity without boundaries is deleted with those that wait for it. -/
theorem Keeps.renew (keeps : s.Keeps []) (inside : s.contains id = true)
    (free : ∀ n kind, s.pRangeTrigger n ≠ some (id, kind)) (good : system.Good) (dels : system.dels = [])
    (inSystem : ∀ n, system.inSystem n = (s.system.inSystem n && n ∉ s.system.dels ++ [.entity (s.entityNode id)]))
    (freed : ∀ n, system.freed n = (s.system.freed n || n ∈ s.system.dels ++ [.entity (s.entityNode id)])) :
    (s.renew id system).Keeps [] := by
  have fresh := keeps.made (.entity ⟨id, s.made id⟩) le_rfl
  have out : ∀ n, s.system.inSystem n = false → s.system.freed n = false →
      system.inSystem n = false ∧ system.freed n = false := by
    intro n out alive
    rw [inSystem, freed, out, alive, Bool.false_and, Bool.false_or]
    exact ⟨rfl, decide_eq_false (keeps.not_deleted inside out)⟩
  have stays : ∀ n, s.system.inSystem n = true → n ∉ s.system.dels → n ≠ .entity (s.entityNode id) →
      system.inSystem n = true := by
    intro n mem kept ne
    rw [inSystem, mem, Bool.true_and, decide_eq_true_eq, List.mem_append, List.mem_singleton]
    exact not_or.2 ⟨kept, ne⟩
  have apart : ∀ id', id' ≠ id → Node.entity (s.entityNode id') ≠ .entity (s.entityNode id) :=
    fun id' other same => other (keeps.entity_inj same)
  have others : ∀ {n id' kind}, s.pRangeTrigger n = some (id', kind) → id' ≠ id :=
    fun attached same => free _ _ (same ▸ attached)
  refine ⟨good, ?_, by simp, ?_, ?_, keeps.origin, ?_, ?_, ?_, ?_⟩
  · intro n late
    have unmade := keeps.made n (le_trans renew_made late)
    exact out n unmade.1 unmade.2
  · intro id'
    by_cases same : id' = id
    · subst same
      rw [renew_entityNode_self, renew_made_self]
      exact ⟨rfl, Nat.lt_succ_self _⟩
    · rw [renew_entityNode same]
      exact ⟨(keeps.node id').1, lt_of_lt_of_le (keeps.node id').2 renew_made⟩
  · intro id'
    rw [renew_system, dels]
    refine ⟨?_, by simp⟩
    by_cases same : id' = id
    · subst same
      rw [renew_entityNode_self]
      exact (out _ fresh.1 fresh.2).2
    · rw [renew_entityNode same, freed, (keeps.alive id').1, Bool.false_or, decide_eq_false_iff_not, List.mem_append,
        List.mem_singleton]
      exact not_or.2 ⟨(keeps.alive id').2, apart id' same⟩
  · intro id' inside'
    rw [contains, renew_system] at inside'
    by_cases same : id' = id
    · subst same
      rw [renew_entityNode_self, (out _ fresh.1 fresh.2).1] at inside'
      cases inside'
    · rw [renew_entityNode same, inSystem, Bool.and_eq_true] at inside'
      exact keeps.position id' inside'.1
  · intro n id' kind attached
    have other := others attached
    have bound := keeps.attached n id' kind attached
    obtain ⟨serial, shape, less⟩ := bound.shape
    refine ⟨⟨serial, shape, lt_of_lt_of_le less renew_made⟩, bound.range, ?_, ?_, ?_, ?_⟩
    · rw [renew_system, dels]
      exact List.not_mem_nil
    · intro _
      refine stays n (bound.placed List.not_mem_nil) bound.kept ?_
      rw [shape]
      exact Node.noConfusion
    · rw [contains, renew_entityNode other]
      exact stays _ bound.inside (keeps.alive id').2 (apart id' other)
    · rw [renew_entityNode other]
      exact bound.origin
  · intro e n mem
    rcases @renew_watcherNodes s id system e with none' | old
    · rw [none'] at mem
      cases mem
    · rw [old] at mem
      obtain ⟨id', kind, attached, here⟩ := keeps.watchers e n mem
      exact ⟨id', kind, attached, (renew_entityNode (others attached)).trans here⟩
  · intro e
    rcases @renew_watcherNodes s id system e with none' | old
    · rw [none']
      exact .nil
    · rw [old]
      exact keeps.watched e

end Renew

/-- `uninstallCoordinateNodes` and `releaseNodes`, of an entity without boundaries. -/
theorem Keeps.leave (keeps : s.Keeps []) (inside : s.contains id = true)
    (free : ∀ n kind, s.pRangeTrigger n ≠ some (id, kind)) :
    ∃ t system, s.uninstallCoordinateNodes id = some t ∧ t.system.releaseNodes = some system ∧
      (t.setSystem system).Keeps [] ∧ t.trigger = s.trigger ∧ t.pRangeTrigger = s.pRangeTrigger := by
  have fresh := keeps.made (.entity ⟨id, s.made id⟩) le_rfl
  obtain ⟨system₁, system₂, run₁, run₂, good, dels, inSystem, freed⟩ :=
    keeps.good.leave inside (keeps.xx_entity inside) (keeps.alive id).2 fresh.1
  have run : s.uninstallCoordinateNodes id = some (s.renew id (system₁.new (.entity ⟨id, s.made id⟩))) := by
    rw [uninstallCoordinateNodes, run₁]
    rfl
  exact ⟨_, system₂, run, run₂, keeps.renew inside free good dels inSystem freed, rfl, rfl⟩

/-- `removeEntity`. -/
theorem Inv.removeEntity (inv : s.Inv) (inside : s.contains id = true) : ∃ t, s.removeEntity id = some t ∧ t.Inv := by
  obtain ⟨s₁, run₁, inv₁, node, contains, free⟩ := inv.uninstallAOITrigger id
  obtain ⟨s₂, system, run₂, run₃, keeps, trigger, mine⟩ := inv₁.keeps.leave ((contains id).trans inside)
    fun n kind => inv₁.none_of_missing (free kind) n
  refine ⟨s₂.setSystem system, ?_, keeps, ?_⟩
  · rw [Space.removeEntity, run₁, Option.bind_eq_bind, Option.bind_some, run₂, Option.bind_some, run₃]
    rfl
  · intro id' kind'
    have holds := inv₁.holds id' kind'
    rw [← trigger, ← mine] at holds
    exact holds

end Space

section Runs

variable {s t : Space} {a : Action}

/-- An entity is added when it is not in the space and removed when it is. -/
def Allowed (s : Space) : Action → Prop
  | .add id => s.contains id = false
  | .remove id => s.contains id = true
  | .move _ _ => True
  | .setAoiRadius _ _ _ => True

/-- The coordinates that nodes in the lists get are numbers. -/
def Numbers (s : Space) : Action → Prop
  | .add id => (∀ a, s.position id a ≠ .nan) ∧
      (¬ (s.aoiRadius id).le (.num 0) = true → ∀ kind, (s.trigger id kind).range ≠ .nan)
  | .move id pos => s.contains id = true → ∀ a, pos a ≠ .nan
  | .setAoiRadius id radius hyst =>
      (Coordinate.num 0).lt radius = true → (s.trigger id .hysteresis).isInstalled = true → hyst ≠ .nan
  | .remove _ => True

/-- A trigger that `setAoiRadius` has to install has its origin at the node of the entity. -/
def Anchored (s : Space) : Action → Prop
  | .setAoiRadius id radius hyst => s.contains id = true → ∀ kind, Space.Installs radius hyst kind →
      (s.trigger id kind).isInstalled = true ∨ (s.trigger id kind).origin = s.entityNode id
  | .add _ => True
  | .move _ _ => True
  | .remove _ => True

def Sound (s : Space) (a : Action) : Prop := Allowed s a ∧ Numbers s a ∧ Anchored s a

/-- The lists from `first_x_coordinateNode_` to `first_z_coordinateNode_`. -/
def System.WellFormed (s : System) : Prop :=
  ∃ L : Axis → List Node, (∀ a, (s.line a).toLinks.Linked (L a)) ∧ (∀ a b n, n ∈ L a ↔ n ∈ L b) ∧
    (∀ a, (L a).length = s.size) ∧ ∀ a, (s.line a).Sorted (L a)

theorem Space.Inv.wellFormed (inv : s.Inv) : s.system.WellFormed := by
  obtain ⟨L, formed, sorted⟩ := inv.keeps.good.lists
  refine ⟨L, fun a => (formed.line a).linked, ?_, formed.size, sorted⟩
  exact fun a b n => (formed.member a n).trans (formed.member b n).symm

/-- One operation. -/
theorem Space.Inv.step (inv : s.Inv) (sound : Sound s a) : ∃ t, step s a = some t ∧ t.Inv := by
  obtain ⟨allowed, numbers, anchored⟩ := sound
  cases a with
  | add id => exact inv.addEntityAndEnterWorld allowed numbers.1 numbers.2
  | move id pos => exact inv.moveEntity numbers
  | setAoiRadius id radius hyst => exact inv.setAoiRadius numbers anchored
  | remove id => exact inv.removeEntity allowed

theorem inv_start {position : Nat → Axis → Coordinate} : (start position).Inv :=
  ⟨Space.keeps_start, fun _ _ => .free rfl rfl nofun⟩

/-- In every run whose steps are sound the lists are well formed in every state, and every
sound operation ends, in a state with well formed lists. -/
theorem lists_well_formed {position : Nat → Axis → Coordinate} {as : List Action}
    (run : Runs step Sound (start position) as s) :
    s.system.WellFormed ∧ ∀ a, Sound s a → ∃ t, step s a = some t ∧ t.system.WellFormed := by
  have inv : s.Inv := run.invariant Space.Inv inv_start (by
    intro s a t inv sound next
    obtain ⟨t', next', inv'⟩ := inv.step sound
    obtain rfl := Option.some.inj (next.symm.trans next')
    exact inv')
  refine ⟨inv.wellFormed, ?_⟩
  intro a sound
  obtain ⟨t, next, invT⟩ := inv.step sound
  exact ⟨t, next, invT.wellFormed⟩

instance (s : Space) : (a : Action) → Decidable (Allowed s a)
  | .add _ => inferInstanceAs (Decidable (_ = _))
  | .remove _ => inferInstanceAs (Decidable (_ = _))
  | .move _ _ => inferInstanceAs (Decidable True)
  | .setAoiRadius _ _ _ => inferInstanceAs (Decidable True)

instance (s : Space) : (a : Action) → Decidable (Numbers s a)
  | .add _ => inferInstanceAs (Decidable (_ ∧ (_ → _)))
  | .remove _ => inferInstanceAs (Decidable True)
  | .move _ _ => inferInstanceAs (Decidable (_ → _))
  | .setAoiRadius _ _ _ => inferInstanceAs (Decidable (_ → _ → _))

instance (radius hyst : Coordinate) (kind : Kind) : Decidable (Space.Installs radius hyst kind) :=
  inferInstanceAs (Decidable (_ ∧ _ ∧ (_ → _)))

instance (s : Space) : (a : Action) → Decidable (Anchored s a)
  | .add _ => inferInstanceAs (Decidable True)
  | .remove _ => inferInstanceAs (Decidable True)
  | .move _ _ => inferInstanceAs (Decidable True)
  | .setAoiRadius _ _ _ => inferInstanceAs (Decidable (_ → _))

instance (s : Space) (a : Action) : Decidable (Sound s a) := inferInstanceAs (Decidable (_ ∧ _ ∧ _))

/-- Every entity stands at the number of its id. -/
def diagonal : Space := start fun id _ => .num id

/-- Two entities come, one of them moves and the other one changes its radius, to none and back. -/
theorem lists_well_formed_two : ∃ s, Runs step Sound diagonal
      [.add 0, .add 1, .move 0 fun _ => .num 3, .setAoiRadius 1 (.num 0) (.num 1), .setAoiRadius 1 (.num 2) (.num 1)] s ∧
    s.system.size = 14 ∧ s.system.WellFormed ∧ ∃ t, step s (.remove 0) = some t ∧ t.system.WellFormed := by
  obtain ⟨s, run, size, sound⟩ : ∃ s, Runs step Sound diagonal
      [.add 0, .add 1, .move 0 fun _ => .num 3, .setAoiRadius 1 (.num 0) (.num 1), .setAoiRadius 1 (.num 2) (.num 1)] s ∧
      s.system.size = 14 ∧ Sound s (.remove 0) := by
    apply Runs.exists_of_decide
    decide +kernel
  have formed := lists_well_formed run
  exact ⟨s, run, size, formed.1, formed.2 (.remove 0) sound⟩

/-- An entity leaves the space and comes back with a radius of `0`. The radius it is given then
has its trigger installed around the node that was deleted. And a coordinate that is no number
keeps `update` in its loop. -/
theorem deleted_origin_followed :
    (∃ s, Runs step Allowed diagonal [.add 0, .remove 0, .setAoiRadius 0 (.num 0) (.num 1), .add 0] s ∧
      Allowed s (.setAoiRadius 0 (.num 5) (.num 1)) ∧ step s (.setAoiRadius 0 (.num 5) (.num 1)) = none) ∧
    ∃ s, Runs step Allowed diagonal [.add 0] s ∧ Allowed s (.move 0 fun _ => .nan) ∧
      ∀ bound k, (s.system.line .x).rounds (.entity (s.entityNode 0)) .nan bound k = none := by
  constructor
  · obtain ⟨s, run, fails⟩ : ∃ s,
        Runs step Allowed diagonal [.add 0, .remove 0, .setAoiRadius 0 (.num 0) (.num 1), .add 0] s ∧
        (step s (.setAoiRadius 0 (.num 5) (.num 1))).isNone = true := by
      apply Runs.exists_of_decide
      decide +kernel
    exact ⟨s, run, trivial, Option.isNone_iff_eq_none.1 fails⟩
  · obtain ⟨s, run, beside⟩ : ∃ s, Runs step Allowed diagonal [.add 0] s ∧
        ((s.system.line .x).prev (.entity (s.entityNode 0))).isSome = true := by
      apply Runs.exists_of_decide
      decide +kernel
    exact ⟨s, run, trivial, fun _ _ => Line.rounds_nan (.inl beside)⟩

end Runs

end GameServer.Coordinates

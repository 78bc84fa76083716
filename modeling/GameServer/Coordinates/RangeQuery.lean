import Mathlib.Data.Finset.Sort
import GameServer.Coordinates.WellFormed

/-!
# The entities in range

`entitiesInRange` asks each axis from any node of its list. A walk to the origin finds a node that has no entity beyond the
origin on one side and none before it on the other, and from there the distances grow both ways, so that a walk may stop at the
first entity out of range.

An entity's number stands for its address, by which the sets are ordered.
-/

namespace GameServer.Coordinates

open Aoi (Axis)
open Lib (Links)

/-- `CoordinateNodeWrapX` to `CoordinateNodeWrapY`: the list of one axis, where the entities are on it, and `originPos_`. -/
structure CoordinateNodeWrap where
  line : Line
  position : Nat → ℚ
  originPos : ℚ

namespace CoordinateNodeWrap

def compare (wrap : CoordinateNodeWrap) (pEntity : Nat) : Int :=
  if wrap.position pEntity = wrap.originPos then 0 else if wrap.position pEntity > wrap.originPos then 1 else -1

def length (wrap : CoordinateNodeWrap) (pEntity : Nat) : ℚ := |wrap.position pEntity - wrap.originPos|

/-- The first loop of `findNearestNode`, with a bound on its passes: the node itself may be the one. -/
def firstEntity (move : Node → Option Node) : Nat → Node → Option (Option EntityNode)
  | 0, _ => none
  | _ + 1, .entity e => some (some e)
  | k + 1, .boundary id serial =>
    match move (.boundary id serial) with
    | none => some none
    | some n => firstEntity move k n

/-- The second loop, which moves before it looks. -/
def entityAfter (move : Node → Option Node) (bound : Nat) (n : Node) : Option (Option EntityNode) :=
  match move n with
  | none => some none
  | some n => firstEntity move bound n

/-- The loops that look for the other side of the origin; at the end of the list the last node is returned. -/
def reach (move : Node → Option Node) (beyond : Nat → Bool) : Nat → Node → Option Node
  | 0, _ => none
  | k + 1, pCoordinateNode =>
    match move pCoordinateNode with
    | none => some pCoordinateNode
    | some (.entity e) => if beyond e.id then some (.entity e) else reach move beyond k (.entity e)
    | some (.boundary id serial) => reach move beyond k (.boundary id serial)

/-- The first part of `findNearestNode`, which looks for any entity node. -/
def anyEntity (wrap : CoordinateNodeWrap) (bound : Nat) (rootNode : Node) : Option (Option EntityNode) := do
  match ← firstEntity wrap.line.prev bound rootNode with
  | some e => return some e
  | none => entityAfter wrap.line.next bound rootNode

/-- `findNearestNode`. -/
def findNearestNode (wrap : CoordinateNodeWrap) (bound : Nat) (rootNode : Node) : Option (Option Node) := do
  match ← wrap.anyEntity bound rootNode with
  | none => return none
  | some e =>
    let v := wrap.compare e.id
    if v = 0 then return some (.entity e)
    else if v > 0 then return some (← reach wrap.line.prev (fun id => wrap.compare id ≤ 0) bound (.entity e))
    else return some (← reach wrap.line.next (fun id => wrap.compare id ≥ 0) bound (.entity e))

/-- One of the two loops of `entitiesInAxisRange`. -/
def collect (wrap : CoordinateNodeWrap) (move : Node → Option Node) (radius : ℚ) (entityUType : Int) :
    Nat → Node → Finset Nat → Option (Finset Nat)
  | 0, _, _ => none
  | k + 1, n, foundEntities =>
    match move n with
    | none => some foundEntities
    | some (.boundary id serial) => collect wrap move radius entityUType k (.boundary id serial) foundEntities
    | some (.entity e) =>
      if entityUType = -1 then
        if wrap.length e.id ≤ radius then collect wrap move radius entityUType k (.entity e) (insert e.id foundEntities)
        else some foundEntities
      else collect wrap move radius entityUType k (.entity e) foundEntities

/-- What `entitiesInAxisRange` does with the node that was found. -/
def collectNode (wrap : CoordinateNodeWrap) (radius : ℚ) (entityUType : Int) (foundEntities : Finset Nat) : Node → Finset Nat
  | .entity e => if entityUType = -1 ∧ wrap.length e.id ≤ radius then insert e.id foundEntities else foundEntities
  | .boundary _ _ => foundEntities

/-- `entitiesInAxisRange`. -/
def entitiesInAxisRange (wrap : CoordinateNodeWrap) (bound : Nat) (foundEntities : Finset Nat) (rootNode : Node) (radius : ℚ)
    (entityUType : Int) : Option (Finset Nat) := do
  match ← wrap.findNearestNode bound rootNode with
  | none => return foundEntities
  | some pCoordinateNode =>
    let foundEntities := wrap.collectNode radius entityUType foundEntities pCoordinateNode
    let foundEntities ← wrap.collect wrap.line.prev radius entityUType bound pCoordinateNode foundEntities
    wrap.collect wrap.line.next radius entityUType bound pCoordinateNode foundEntities

end CoordinateNodeWrap

def System.wrap (s : System) (position : Nat → Axis → ℚ) (originPos : Axis → ℚ) (a : Axis) : CoordinateNodeWrap :=
  ⟨s.line a, fun id => position id a, originPos a⟩

/-- `EntityCoordinateNode::entitiesInRange`, of entities that are at `position`. -/
def System.entitiesInRange (s : System) (position : Nat → Axis → ℚ) (foundEntities : List Nat) (rootNode : Node)
    (originPos : Axis → ℚ) (radius : ℚ) (entityUType : Int) : Option (List Nat) := do
  let axis := fun a => (s.wrap position originPos a).entitiesInAxisRange (s.size + 1) ∅ rootNode radius entityUType
  let entities_X ← axis .x
  let entities_Z ← axis .z
  let entities_Y ← axis .y
  let res_set := entities_X ∩ entities_Z
  return foundEntities ++ (res_set ∩ entities_Y).sort (· ≤ ·)

/-- The entities of the nodes, one after the other. -/
def entities (L : List Node) : List Nat :=
  L.filterMap fun
    | .entity e => some e.id
    | .boundary _ _ => none

section Entities

variable {e : EntityNode} {id serial : Nat} {n : Node} {L M : List Node}

@[simp] theorem entities_nil : entities [] = [] := rfl
@[simp] theorem entities_entity : entities (.entity e :: L) = e.id :: entities L := rfl
@[simp] theorem entities_boundary : entities (.boundary id serial :: L) = entities L := rfl
@[simp] theorem entities_append : entities (L ++ M) = entities L ++ entities M := List.filterMap_append
@[simp] theorem entities_reverse : entities L.reverse = (entities L).reverse := List.filterMap_reverse

theorem entities_cons : entities (n :: L) = entities [n] ++ entities L := by
  rw [← entities_append, List.singleton_append]

theorem mem_entities : id ∈ entities L ↔ ∃ e, .entity e ∈ L ∧ e.id = id := by
  rw [entities, List.mem_filterMap]
  constructor
  · rintro ⟨n, mem, is⟩
    cases n with
    | boundary => cases is
    | entity e => exact ⟨e, mem, Option.some.inj is⟩
  · rintro ⟨e, mem, rfl⟩
    exact ⟨_, mem, rfl⟩

/-- In the list of an axis the entities are in the order of their coordinates. -/
theorem entities_sorted {line : Line} {position : Nat → ℚ} (sorted : line.Sorted L)
    (stored : ∀ e, .entity e ∈ L → line.coord (.entity e) = .num (position e.id)) :
    (entities L).Pairwise fun c d => position c ≤ position d := by
  induction L with
  | nil => exact .nil
  | cons n L ih =>
    obtain ⟨first, sorted⟩ := List.pairwise_cons.1 sorted
    have rest := ih sorted fun e mem => stored e (List.mem_cons_of_mem n mem)
    cases n with
    | boundary id serial => exact rest
    | entity e =>
      refine List.pairwise_cons.2 ⟨?_, rest⟩
      intro id mem
      obtain ⟨d, after, rfl⟩ := mem_entities.1 mem
      have le := first _ after
      rw [stored e List.mem_cons_self, stored d (List.mem_cons_of_mem _ after)] at le
      exact of_decide_eq_true le

end Entities

section Walks

variable {wrap : CoordinateNodeWrap} {move : Node → Option Node} {n : Node} {M P L : List Node} {k : Nat} {e : EntityNode} {o : ℚ}

open CoordinateNodeWrap

/-- The walk for an entity ends, at one or past all nodes. -/
theorem firstEntity_trail (trail : Links.Trail move n M) (bound : M.length < k) :
    (firstEntity move k n = some none ∧ entities (n :: M) = []) ∨
      ∃ e, firstEntity move k n = some (some e) ∧ .entity e ∈ n :: M := by
  obtain ⟨k, rfl⟩ := Nat.exists_eq_succ_of_ne_zero (Nat.ne_of_gt (Nat.zero_lt_of_lt bound))
  cases n with
  | entity e => exact .inr ⟨e, rfl, List.mem_cons_self⟩
  | boundary id serial =>
    induction M generalizing id serial k with
    | nil =>
      have stop : move (.boundary id serial) = none := trail
      exact .inl ⟨by rw [firstEntity, stop], rfl⟩
    | cons m M ih =>
      obtain ⟨go, rest⟩ := trail
      have step : firstEntity move (k + 1) (.boundary id serial) = firstEntity move k m := by rw [firstEntity, go]
      have shorter := Nat.lt_of_succ_lt_succ bound
      obtain ⟨k, rfl⟩ := Nat.exists_eq_succ_of_ne_zero (Nat.ne_of_gt (Nat.zero_lt_of_lt shorter))
      rw [step]
      cases m with
      | entity e => exact .inr ⟨e, rfl, List.mem_cons_of_mem _ List.mem_cons_self⟩
      | boundary id' serial' =>
        rcases ih k shorter id' serial' rest with ⟨run, bare⟩ | ⟨e, run, mem⟩
        · exact .inl ⟨run, bare⟩
        · exact .inr ⟨e, run, List.mem_cons_of_mem _ mem⟩

theorem reach_next {beyond : Nat → Bool} {m : Node} (go : move n = some m) :
    reach move beyond (k + 1) n = if ∃ id ∈ entities [m], beyond id = true then some m else reach move beyond k m := by
  cases m with
  | entity e => simp [reach, go]
  | boundary id serial => simp [reach, go]

/-- The walk to the other side of the origin divides the nodes: none before its end is beyond, and all after it are. -/
theorem reach_trail {beyond : Nat → Bool} (trail : Links.Trail move n M) (bound : M.length < k)
    (stays : (entities M).Pairwise fun c d => beyond c = true → beyond d = true) (near : ∀ id ∈ entities [n], beyond id = false) :
    ∃ before c after, reach move beyond k n = some c ∧ n :: M = before ++ c :: after ∧
      (∀ id ∈ entities before, beyond id = false) ∧ ∀ id ∈ entities after, beyond id = true := by
  induction M generalizing n k with
  | nil =>
    obtain ⟨k, rfl⟩ := Nat.exists_eq_succ_of_ne_zero (Nat.ne_of_gt bound)
    have stop : move n = none := trail
    exact ⟨[], n, [], by rw [reach, stop], rfl, by simp, by simp⟩
  | cons m M ih =>
    obtain ⟨k, rfl⟩ := Nat.exists_eq_succ_of_ne_zero (Nat.ne_of_gt (Nat.zero_lt_of_lt bound))
    obtain ⟨go, rest⟩ := trail
    rw [entities_cons, List.pairwise_append] at stays
    rw [reach_next go]
    split_ifs with isBeyond
    · obtain ⟨d, mem, isBeyond⟩ := isBeyond
      exact ⟨[n], m, M, rfl, rfl, near, fun id mem' => stays.2.2 d mem id mem' isBeyond⟩
    · have near' : ∀ id ∈ entities [m], beyond id = false :=
        fun id mem => Bool.eq_false_iff.2 fun isBeyond' => isBeyond ⟨id, mem, isBeyond'⟩
      obtain ⟨before, c, after, run, parts, none', all⟩ := ih rest (Nat.lt_of_succ_lt_succ bound) stays.2.1 near'
      refine ⟨n :: before, c, after, run, by rw [parts, List.cons_append], ?_, all⟩
      intro id mem
      rw [entities_cons, List.mem_append] at mem
      exact mem.elim (near id) (none' id)

/-- A node with the entities of the nodes before it on one side of the origin and those after it on the other. -/
structure Parts (wrap : CoordinateNodeWrap) (P : List Node) (c : Node) (M : List Node) : Prop where
  before : ∀ id ∈ entities P, wrap.position id ≤ wrap.originPos
  after : ∀ id ∈ entities M, wrap.originPos ≤ wrap.position id

/-- The list of an axis. -/
structure Listed (wrap : CoordinateNodeWrap) (L : List Node) : Prop where
  linked : wrap.line.toLinks.Linked L
  sorted : (entities L).Pairwise fun c d => wrap.position c ≤ wrap.position d

variable {id : Nat}

theorem compare_zero : wrap.compare id = 0 ↔ wrap.position id = wrap.originPos := by
  rw [CoordinateNodeWrap.compare]
  split_ifs <;> grind

theorem compare_pos : wrap.compare id > 0 ↔ wrap.originPos < wrap.position id := by
  rw [CoordinateNodeWrap.compare]
  split_ifs <;> grind

theorem compare_neg : wrap.compare id < 0 ↔ wrap.position id < wrap.originPos := by
  rw [CoordinateNodeWrap.compare]
  split_ifs <;> grind

/-- The walks for an entity find one wherever there is one. -/
theorem anyEntity_listed (listed : Listed wrap L) (mem : n ∈ L) (bound : L.length < k) :
    (wrap.anyEntity k n = some none ∧ entities L = []) ∨ ∃ e, wrap.anyEntity k n = some (some e) ∧ .entity e ∈ L := by
  obtain ⟨P, M, rfl⟩ := List.append_of_mem mem
  rw [List.length_append, List.length_cons] at bound
  have chain := listed.linked.chain
  have back : P.reverse.length < k := by
    rw [List.length_reverse]
    omega
  rcases firstEntity_trail (Links.trail_prev chain) back with ⟨run, bare⟩ | ⟨e, run, mem⟩
  · rw [anyEntity, run, entityAfter, Option.bind_eq_bind, Option.bind_some]
    have trail := Links.trail_next (Links.chain_append.1 chain).2
    rw [entities_cons, List.append_eq_nil_iff, entities_reverse, List.reverse_eq_nil_iff] at bare
    cases M with
    | nil =>
      have stop : wrap.line.next n = none := trail
      rw [stop, entities_append, bare.1, bare.2]
      exact .inl ⟨rfl, rfl⟩
    | cons m M =>
      obtain ⟨go, trail⟩ := trail
      rw [List.length_cons] at bound
      rw [go]
      rcases firstEntity_trail trail (k := k) (by omega) with ⟨run, bare'⟩ | ⟨e, run, mem⟩
      · refine .inl ⟨run, ?_⟩
        rw [entities_append, entities_cons, bare.1, bare.2, bare']
        rfl
      · exact .inr ⟨e, run, List.mem_append_right P (List.mem_cons_of_mem n mem)⟩
  · refine .inr ⟨e, ?_, ?_⟩
    · rw [anyEntity, run]
      rfl
    · simp only [List.mem_cons, List.mem_reverse] at mem
      simp only [List.mem_append, List.mem_cons]
      tauto

/-- `findNearestNode` finds a node that has all entities before it on one side of the origin and all after it on the other, and
none only where no entity is. -/
theorem findNearestNode_listed (listed : Listed wrap L) (mem : n ∈ L) (bound : L.length < k) :
    (wrap.findNearestNode k n = some none ∧ entities L = []) ∨
      ∃ P c M, wrap.findNearestNode k n = some (some c) ∧ L = P ++ c :: M ∧ Parts wrap P c M := by
  rcases anyEntity_listed listed mem bound with ⟨run, bare⟩ | ⟨e, run, mem⟩
  · left
    rw [findNearestNode, run]
    exact ⟨rfl, bare⟩
  right
  obtain ⟨P, M, rfl⟩ := List.append_of_mem mem
  rw [List.length_append, List.length_cons] at bound
  have sorted := listed.sorted
  rw [entities_append, entities_entity, List.pairwise_append, List.pairwise_cons] at sorted
  obtain ⟨sortedP, ⟨first, sortedM⟩, across⟩ := sorted
  have chain := listed.linked.chain
  rw [findNearestNode, run, Option.bind_eq_bind, Option.bind_some]
  dsimp only
  split_ifs with zero pos
  · -- the entity is at the origin
    have here := compare_zero.1 zero
    exact ⟨P, .entity e, M, rfl, rfl, fun id mem => here ▸ across id mem _ List.mem_cons_self, fun id mem => here ▸ first id mem⟩
  · -- the walk goes down
    have pos := compare_pos.1 pos
    have down : (entities P.reverse).Pairwise fun c d => decide (wrap.compare c ≤ 0) = true → decide (wrap.compare d ≤ 0) = true := by
      rw [entities_reverse, List.pairwise_reverse]
      apply sortedP.imp
      intro c d le below
      rw [decide_eq_true_iff, ← not_lt, ← gt_iff_lt, compare_pos] at below ⊢
      exact fun above => below (above.trans_le le)
    obtain ⟨before, c, after, run, parts, near, far⟩ := reach_trail (k := k) (Links.trail_prev chain)
      (by rw [List.length_reverse]; omega) down (by simpa [compare_pos] using pos)
    have parts : P ++ [.entity e] = after.reverse ++ c :: before.reverse := by
      rw [← List.reverse_inj, List.reverse_append, List.reverse_singleton, List.singleton_append, parts]
      simp
    refine ⟨after.reverse, c, before.reverse ++ M, ?_, ?_, ?_, ?_⟩
    · rw [run]
      rfl
    · rw [← List.singleton_append, ← List.append_assoc, parts, List.append_assoc, List.cons_append]
    · intro id mem
      rw [entities_reverse, List.mem_reverse] at mem
      have below := far id mem
      rwa [decide_eq_true_iff, ← not_lt, ← gt_iff_lt, compare_pos, not_lt] at below
    · intro id mem
      rw [entities_append, entities_reverse, List.mem_append, List.mem_reverse] at mem
      rcases mem with mem | mem
      · have above := near id mem
        rw [decide_eq_false_iff_not, ← not_lt, not_not, ← gt_iff_lt, compare_pos] at above
        exact above.le
      · exact pos.le.trans (first id mem)
  · -- the walk goes up
    have neg : wrap.position e.id < wrap.originPos := by
      rw [← compare_neg]
      omega
    have up : (entities M).Pairwise fun c d => decide (wrap.compare c ≥ 0) = true → decide (wrap.compare d ≥ 0) = true := by
      apply sortedM.imp
      intro c d le above
      rw [decide_eq_true_iff, ge_iff_le, ← not_lt, compare_neg] at above ⊢
      exact fun below => above (le.trans_lt below)
    obtain ⟨before, c, after, run, parts, near, far⟩ := reach_trail (k := k) (Links.trail_next (Links.chain_append.1 chain).2)
      (by omega) up (by simpa [compare_neg] using neg)
    refine ⟨P ++ before, c, after, ?_, ?_, ?_, ?_⟩
    · rw [run]
      rfl
    · rw [parts, List.append_assoc]
    · intro id mem
      rw [entities_append, List.mem_append] at mem
      rcases mem with mem | mem
      · exact (across id mem _ List.mem_cons_self).trans neg.le
      · have below := near id mem
        rw [decide_eq_false_iff_not, ge_iff_le, ← not_lt, not_not, compare_neg] at below
        exact below.le
    · intro id mem
      have above := far id mem
      rwa [decide_eq_true_iff, ge_iff_le, ← not_lt, compare_neg, not_lt] at above

/-- One of the loops collects the entities in range, when out of range stays out of range. -/
theorem collect_trail (radius : ℚ) (found : Finset Nat) (trail : Links.Trail move n M) (bound : M.length < k)
    (grow : (entities M).Pairwise fun c d => wrap.length c ≤ wrap.length d) :
    ∃ ids, wrap.collect move radius (-1) k n found = some ids ∧
      ∀ id, id ∈ ids ↔ id ∈ found ∨ id ∈ entities M ∧ wrap.length id ≤ radius := by
  induction M generalizing n k found with
  | nil =>
    obtain ⟨k, rfl⟩ := Nat.exists_eq_succ_of_ne_zero (Nat.ne_of_gt bound)
    have stop : move n = none := trail
    exact ⟨found, by rw [collect, stop], by simp⟩
  | cons m M ih =>
    obtain ⟨k, rfl⟩ := Nat.exists_eq_succ_of_ne_zero (Nat.ne_of_gt (Nat.zero_lt_of_lt bound))
    obtain ⟨go, rest⟩ := trail
    have shorter := Nat.lt_of_succ_lt_succ bound
    rw [collect, go]
    cases m with
    | boundary id serial => exact ih found rest shorter grow
    | entity e =>
      rw [entities_entity, List.pairwise_cons] at grow
      obtain ⟨first, grow⟩ := grow
      dsimp only
      rw [if_pos rfl]
      split_ifs with near
      · obtain ⟨ids, run, exact'⟩ := ih (insert e.id found) rest shorter grow
        refine ⟨ids, run, fun id => ?_⟩
        rw [exact', Finset.mem_insert, entities_entity, List.mem_cons]
        grind
      · refine ⟨found, rfl, fun id => ?_⟩
        rw [entities_entity, List.mem_cons]
        grind

theorem mem_collectNode {radius : ℚ} {found : Finset Nat} {id : Nat} :
    id ∈ wrap.collectNode radius (-1) found n ↔ id ∈ found ∨ id ∈ entities [n] ∧ wrap.length id ≤ radius := by
  cases n with
  | boundary => simp [collectNode]
  | entity e =>
    rw [collectNode]
    split_ifs <;> grind [entities_entity, entities_nil]

/-- The distances grow from the node that was found, both ways. -/
theorem Parts.grow {c : Node} (parts : Parts wrap P c M)
    (sorted : (entities (P ++ c :: M)).Pairwise fun c d => wrap.position c ≤ wrap.position d) :
    ((entities P.reverse).Pairwise fun c d => wrap.length c ≤ wrap.length d) ∧
      (entities M).Pairwise fun c d => wrap.length c ≤ wrap.length d := by
  rw [entities_append, entities_cons, List.pairwise_append, List.pairwise_append] at sorted
  obtain ⟨sortedP, ⟨-, sortedM, -⟩, -⟩ := sorted
  constructor
  · rw [entities_reverse, List.pairwise_reverse]
    refine sortedP.imp_of_mem ?_
    intro c d memC memD le
    rw [length, length, abs_of_nonpos (sub_nonpos.2 (parts.before d memD)), abs_of_nonpos (sub_nonpos.2 (parts.before c memC))]
    exact neg_le_neg (sub_le_sub_right le _)
  · refine sortedM.imp_of_mem ?_
    intro c d memC memD le
    rw [length, length, abs_of_nonneg (sub_nonneg.2 (parts.after c memC)), abs_of_nonneg (sub_nonneg.2 (parts.after d memD))]
    exact sub_le_sub_right le _

/-- `entitiesInAxisRange` finds the entities of the list that are in range on the axis. -/
theorem entitiesInAxisRange_listed {radius : ℚ} (listed : Listed wrap L) (mem : n ∈ L) (bound : L.length < k) :
    ∃ ids, wrap.entitiesInAxisRange k ∅ n radius (-1) = some ids ∧
      ∀ id, id ∈ ids ↔ id ∈ entities L ∧ wrap.length id ≤ radius := by
  rcases findNearestNode_listed listed mem bound with ⟨run, bare⟩ | ⟨P, c, M, run, rfl, parts⟩
  · refine ⟨∅, ?_, by simp [bare]⟩
    rw [entitiesInAxisRange, run]
    rfl
  · rw [List.length_append, List.length_cons] at bound
    have chain := listed.linked.chain
    obtain ⟨growP, growM⟩ := parts.grow listed.sorted
    obtain ⟨back, run₁, exact₁⟩ := collect_trail (k := k) radius _
      (Links.trail_prev chain) (by rw [List.length_reverse]; omega) growP
    obtain ⟨ids, run₂, exact₂⟩ := collect_trail (k := k) radius back
      (Links.trail_next (Links.chain_append.1 chain).2) (by omega) growM
    refine ⟨ids, ?_, ?_⟩
    · rw [entitiesInAxisRange, run]
      dsimp only [Option.bind_eq_bind, Option.bind_some]
      rw [run₁]
      exact run₂
    · intro id
      have where' : id ∈ entities (P ++ c :: M) ↔ id ∈ entities P ∨ id ∈ entities [c] ∨ id ∈ entities M := by
        rw [entities_append, entities_cons, List.mem_append, List.mem_append]
      rw [exact₂, exact₁, mem_collectNode, entities_reverse, List.mem_reverse, where']
      have none' : id ∉ (∅ : Finset Nat) := Finset.notMem_empty id
      tauto

end Walks

/-- The three lists hold the same nodes, sorted, and the coordinate that is stored for an entity is the one it has. -/
structure System.Holds (s : System) (L : Axis → List Node) (position : Nat → Axis → ℚ) : Prop where
  linked : ∀ a, (s.line a).toLinks.Linked (L a)
  same : ∀ a b n, n ∈ L a ↔ n ∈ L b
  size : ∀ a, (L a).length = s.size
  sorted : ∀ a, (s.line a).Sorted (L a)
  stored : ∀ a e, .entity e ∈ L a → (s.line a).coord (.entity e) = .num (position e.id a)

variable {s : System} {L : Axis → List Node} {position : Nat → Axis → ℚ}

theorem System.Holds.wellFormed (holds : s.Holds L position) : s.WellFormed :=
  ⟨L, holds.linked, holds.same, holds.size, holds.sorted⟩

theorem System.Holds.listed (holds : s.Holds L position) (originPos : Axis → ℚ) (a : Axis) :
    Listed (s.wrap position originPos a) (L a) :=
  ⟨holds.linked a, entities_sorted (holds.sorted a) (holds.stored a)⟩

theorem System.Holds.entities (holds : s.Holds L position) (a b : Axis) {id : Nat} (mem : id ∈ entities (L a)) :
    id ∈ entities (L b) := by
  obtain ⟨e, there, rfl⟩ := mem_entities.1 mem
  exact mem_entities.2 ⟨e, (holds.same a b _).1 there, rfl⟩

/-- **The range query is exact.** From any node of the lists `entitiesInRange` adds the entities that are in range on all three
axes, each once. -/
theorem entitiesInRange_exact (holds : s.Holds L position) (found : List Nat) (root : Node) (listed : root ∈ L .x)
    (origin : Axis → ℚ) (radius : ℚ) :
    ∃ ids, s.entitiesInRange position found root origin radius (-1) = some (found ++ ids) ∧ ids.Nodup ∧
      ∀ id, id ∈ ids ↔ (∃ e, .entity e ∈ L .x ∧ e.id = id) ∧ ∀ a, |position id a - origin a| ≤ radius := by
  have axis : ∀ a, ∃ ids, (s.wrap position origin a).entitiesInAxisRange (s.size + 1) ∅ root radius (-1) = some ids ∧
      ∀ id, id ∈ ids ↔ id ∈ entities (L a) ∧ |position id a - origin a| ≤ radius := by
    intro a
    apply entitiesInAxisRange_listed (holds.listed origin a) ((holds.same .x a root).1 listed)
    rw [holds.size]
    exact Nat.lt_succ_self _
  obtain ⟨entities_X, runX, exactX⟩ := axis .x
  obtain ⟨entities_Z, runZ, exactZ⟩ := axis .z
  obtain ⟨entities_Y, runY, exactY⟩ := axis .y
  refine ⟨(entities_X ∩ entities_Z ∩ entities_Y).sort (· ≤ ·), ?_, Finset.sort_nodup _ _, ?_⟩
  · simp [System.entitiesInRange, runX, runY, runZ]
  · intro id
    rw [Finset.mem_sort, Finset.mem_inter, Finset.mem_inter, exactX, exactY, exactZ, ← mem_entities]
    constructor
    · rintro ⟨⟨⟨mem, x⟩, -, z⟩, -, y⟩
      refine ⟨mem, fun a => ?_⟩
      cases a with
      | x => exact x
      | y => exact y
      | z => exact z
    · rintro ⟨mem, near⟩
      exact ⟨⟨⟨mem, near .x⟩, holds.entities .x .z mem, near .z⟩, holds.entities .x .y mem, near .y⟩

/-- Two entities, and a boundary between them. -/
def between : System :=
  { System.empty with
    line := fun _ =>
      { first := some (.entity ⟨0, 0⟩)
        prev := fun n =>
          if n = .entity ⟨1, 0⟩ then some (.boundary 0 1) else if n = .boundary 0 1 then some (.entity ⟨0, 0⟩) else none
        next := fun n =>
          if n = .entity ⟨0, 0⟩ then some (.boundary 0 1) else if n = .boundary 0 1 then some (.entity ⟨1, 0⟩) else none
        coord := fun n => if n = .entity ⟨0, 0⟩ then .num 0 else if n = .boundary 0 1 then .num 5 else .num 10
        old := fun _ => .num 0 }
    size := 3 }

/-- From the boundary one of the two is in range. -/
theorem entitiesInRange_exact_between : ∃ ids,
    between.entitiesInRange (fun id _ => 10 * id) [7] (.boundary 0 1) (fun _ => 1) 4 (-1) = some ([7] ++ ids) ∧ ids.Nodup ∧
      ∀ id, id ∈ ids ↔ id = 0 := by
  have holds : between.Holds (fun _ => [.entity ⟨0, 0⟩, .boundary 0 1, .entity ⟨1, 0⟩]) fun id _ => 10 * id := by
    constructor
    · intro a
      refine ⟨rfl, by simp [between, Links.Chain], by decide, ?_⟩
      intro c out
      simp only [List.mem_cons, List.not_mem_nil, or_false, not_or] at out
      simp [between, out]
    · exact fun _ _ _ => Iff.rfl
    · exact fun _ => rfl
    · intro a
      have apart : List.Pairwise (fun c d => ((between.line .x).coord c).le ((between.line .x).coord d) = true)
          [.entity ⟨0, 0⟩, .boundary 0 1, .entity ⟨1, 0⟩] := by decide
      exact apart
    · intro a e mem
      simp only [List.mem_cons, List.not_mem_nil, or_false, Node.entity.injEq, reduceCtorEq, false_or] at mem
      rcases mem with rfl | rfl
      · simp [between]
      · simp [between]
  obtain ⟨ids, run, nodup, exact'⟩ := entitiesInRange_exact holds [7] (.boundary 0 1) (by decide) (fun _ => 1) 4
  refine ⟨ids, run, nodup, fun id => ?_⟩
  rw [exact']
  simp only [List.mem_cons, List.not_mem_nil, or_false, Node.entity.injEq, reduceCtorEq, false_or, exists_eq_or_imp,
    exists_eq_left]
  constructor
  · rintro ⟨rfl | rfl, near⟩
    · rfl
    · exact absurd (near .x) (by decide +kernel)
  · rintro rfl
    exact ⟨.inl rfl, by decide +kernel⟩

end GameServer.Coordinates

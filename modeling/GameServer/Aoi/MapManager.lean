import GameServer.Aoi.Space

/-!
# `MapManager`

Entities are added to spaces, deleted from them and moved. A space is its three lists; what
belongs to an entity or a node is kept whichever space it is in, or none. An entity is named by
its id, and the ids are distinct.

`DeleteEntity` takes the boundaries of the entity's triggers out of the lists, makes its
witness leave everybody it sees, and takes the entity's node out. `AddEntity` is called for an
entity that is in no space, and `DeleteEntity` with the space it is in, as by
`Player::OnPlyaerLogin` and `OnPlyaerLogout`. Every entity has a witness.
-/

namespace GameServer.Aoi

namespace Views

/-- `delWitnessed` for the entities of all these references. -/
def delWitnesses (v : Views) (o : Nat) (refs : List EntityRef) : Views :=
  refs.foldl (fun v ref => match ref.pEntity with | some e => v.delWitnessed e o | none => v) v

/-- The end of `uninstallAOITrigger`: `_onLeaveAOI` for every reference. -/
def leaveAll (v : Views) (o : Nat) : Views :=
  (v.delWitnesses o (v.aoiEntities o)).setRefs o ((v.aoiEntities o).map EntityRef.leave)

/-- The rest of `onLeaveSpace`. -/
def clearRefs (v : Views) (o : Nat) : Views := (v.delWitnesses o (v.aoiEntities o)).setRefs o []

end Views

namespace Space

/-- `CoordinateNode::onRemove`; of the three coordinates it resets one. -/
def onRemove (s : Space) (n : Node) : Space := (s.setOld n (s.coord n)).setCoord n .x (-FLT_MAX)

/-- `onTriggerUninstall` and `onRemove`. A boundary without a trigger is at `-FLT_MAX`, here by
its range. -/
def detach (s : Space) (b : Boundary) : Space :=
  let s := s.onRemove (.boundary b)
  { s with
    watcherNodes := Function.update s.watcherNodes b.origin ((s.watcherNodes b.origin).erase b)
    layout := { s.layout with range := Function.update s.layout.range b fun a => -FLT_MAX - s.layout.position b.origin a } }

/-- `CoordinateSystem::remove` of a boundary, up to `dels_`. Without a trigger it does nothing
where it passes a node. -/
def removeBoundary (s : Space) (b : Boundary) : Option Space :=
  ((s.detach b).update (.boundary b)).map fun t => { t with views := s.views }

/-- A boundary that is not null is a watcher of its origin. -/
def uninstallBoundary (s : Space) (b : Boundary) : Option Space :=
  if b ∈ s.watcherNodes b.origin then s.removeBoundary b else some s

/-- `RangeTrigger::uninstall`. -/
def uninstall (s : Space) (o : Nat) (kind : Kind) : Option Space := do
  let s ← s.uninstallBoundary ⟨o, kind, .positive⟩
  s.uninstallBoundary ⟨o, kind, .negative⟩

/-- `uninstallAOITrigger`. -/
def uninstallAOITrigger (s : Space) (o : Nat) : Option Space := do
  let s ← s.uninstall o .aoi
  let s ← s.uninstall o .hysteresis
  return { s with views := s.views.leaveAll o }

/-- `Witness::onLeaveSpace`. -/
def onLeaveSpace (s : Space) (o : Nat) : Option Space := do
  let s ← s.uninstallAOITrigger o
  return { s with views := s.views.clearRefs o }

/-- `releaseNodes`, with the nodes in `dels_`. -/
def releaseNodes (s : Space) (dels : List Node) : Space :=
  { s with list := fun a => (s.list a).filter (· ∉ dels) }

/-- `removeEntity`. -/
def removeEntity (s : Space) (id : Nat) : Option Space := do
  let dels := (s.watcherNodes id).map Node.boundary ++ [.entity id]
  let s ← s.onLeaveSpace id
  let s ← (s.onRemove (.entity id)).update (.entity id)
  return s.releaseNodes dels

end Space

structure MapManager where
  /-- The lists of the spaces in `m_SpaceMap`. -/
  spaceMap : Int → Option (Axis → List Node)
  /-- `m_Entities`. -/
  entities : Nat → Option Nat
  /-- The space that the entity's node is in, its `pCoordinateSystem`. -/
  inSpace : Nat → Option Int
  layout : Layout
  views : Views
  coord : Node → Axis → ℚ
  watcherNodes : Nat → List Boundary

namespace MapManager

/-- Entities with their positions and witnesses, in no space yet. -/
def init (position : Nat → Axis → ℚ) (witness : Nat → Witness) : MapManager where
  spaceMap _ := none
  entities _ := none
  inSpace _ := none
  layout := ⟨position, witness, fun _ _ => 0, fun _ _ => 0, fun _ _ => -FLT_MAX⟩
  views := ⟨fun _ => [], fun _ => []⟩
  coord _ _ := -FLT_MAX
  watcherNodes _ := []

/-- The space with these lists. -/
def load (m : MapManager) (list : Axis → List Node) : Space := ⟨m.layout, m.views, list, m.coord, m.watcherNodes⟩

def store (m : MapManager) (space_id : Int) (s : Space) : MapManager :=
  { m with
    spaceMap := Function.update m.spaceMap space_id (some s.list)
    layout := s.layout, views := s.views, coord := s.coord, watcherNodes := s.watcherNodes }

/-- `FindEntity`; `none` is a null pointer. -/
def findEntity (m : MapManager) (id : Nat) : Option Nat := m.entities id

/-- `AddEntity`. -/
def addEntity (m : MapManager) (space_id : Int) (id : Nat) : Option MapManager := do
  let s ← (m.load ((m.spaceMap space_id).getD fun _ => [])).addEntityAndEnterWorld id
  let m := m.store space_id s
  return { m with
    entities := Function.update m.entities id (some id)
    inSpace := Function.update m.inSpace id (some space_id) }

/-- `DeleteEntity`. -/
def deleteEntity (m : MapManager) (space_id : Int) (id : Nat) : Option MapManager := do
  let m ← match m.spaceMap space_id with
    | none => some m
    | some list => ((m.load list).removeEntity id).map fun s =>
      { m.store space_id s with inSpace := Function.update m.inSpace id none }
  return { m with entities := Function.update m.entities id none }

/-- `Entity::position` and `EntityCoordinateNode::update`. -/
def moveEntity (m : MapManager) (id : Nat) (pos : Axis → ℚ) : Option MapManager :=
  let m := { m with layout := { m.layout with
    position := Function.update m.layout.position id (moved (m.layout.position id) pos) } }
  match m.inSpace id with
  | none => some m
  | some space_id => ((m.load ((m.spaceMap space_id).getD fun _ => [])).updateEntity id).map (m.store space_id)

inductive Act where
  | addEntity (space_id : Int) (id : Nat)
  | deleteEntity (space_id : Int) (id : Nat)
  | move (id : Nat) (pos : Axis → ℚ)

def step (m : MapManager) : Act → Option MapManager
  | .addEntity space_id id => if m.inSpace id = none then m.addEntity space_id id else none
  | .deleteEntity space_id id => if m.inSpace id = some space_id then m.deleteEntity space_id id else none
  | .move id pos => m.moveEntity id pos

end MapManager

end GameServer.Aoi

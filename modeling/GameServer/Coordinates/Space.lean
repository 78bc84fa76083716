import GameServer.Coordinates.System

/-!
# The space over the coordinate system

What adding, moving and removing an entity and changing a witness radius do to the nodes: a
trigger makes its two boundaries when it is installed and gives them up when it is
uninstalled, and an entity that leaves the space gets a new node, the old one being deleted.
Between two removals the boundaries given up stay in the lists.

Every entity has a witness and its two triggers, which `attach` made around its first node.
`onEnteredAoI` and the other callbacks, and what the witnesses see, are left out.
-/

namespace GameServer.Coordinates

open Aoi (Axis Kind FLT_MAX tiny)

/-- `RangeTrigger`; its two ranges are always the same. -/
structure Trigger where
  range : Coordinate
  origin : EntityNode
  positive : Option Node
  negative : Option Node

/-- `isInstalled`. -/
def Trigger.isInstalled (t : Trigger) : Bool := t.positive.isSome && t.negative.isSome

structure Space where
  system : System
  position : Nat → Axis → Coordinate
  /-- `pEntityCoordinateNode_`. -/
  entityNode : Nat → EntityNode
  /-- How many nodes were made for an entity and its triggers. -/
  made : Nat → Nat
  trigger : Nat → Kind → Trigger
  aoiRadius : Nat → Coordinate
  /-- `pRangeTrigger_`. -/
  pRangeTrigger : Node → Option (Nat × Kind)
  /-- `range_xz_` and `range_y_` of a boundary. -/
  range : Node → Coordinate
  watcherNodes : EntityNode → List Node

/-- The radius that `attach` gives, of the AOI and of the hysteresis area. -/
def attached : Kind → Coordinate
  | .aoi => .num 5
  | .hysteresis => .num 6

/-- No entity is in the space yet; `position_` is whatever it is. -/
def start (position : Nat → Axis → Coordinate) : Space where
  system := .empty
  position := position
  entityNode id := ⟨id, 0⟩
  made _ := 1
  trigger id kind := ⟨attached kind, ⟨id, 0⟩, none, none⟩
  aoiRadius _ := .num 5
  pRangeTrigger _ := none
  range _ := .num 0
  watcherNodes _ := []

namespace Space

def setSystem (s : Space) (system : System) : Space := { s with system := system }

def setTrigger (s : Space) (id : Nat) (kind : Kind) (t : Trigger) : Space :=
  { s with trigger := Function.update s.trigger id (Function.update (s.trigger id) kind t) }

def setRange (s : Space) (n : Node) (range : Coordinate) : Space :=
  { s with range := Function.update s.range n range }

def setRadius (s : Space) (id : Nat) (radius : Coordinate) : Space :=
  { s with aoiRadius := Function.update s.aoiRadius id radius }

/-- The entity is in the space. -/
def contains (s : Space) (id : Nat) : Bool := s.system.inSystem (.entity (s.entityNode id))

/-- `xx`, `yy` and `zz`. -/
def xx (s : Space) : Node → Axis → Coordinate
  | .entity e, a => s.position e.id a
  | .boundary id serial, a =>
    let n := .boundary id serial
    if s.system.removed n then .num (-FLT_MAX)
    else match s.pRangeTrigger n with
      | none => .num (-FLT_MAX)
      | some (o, kind) => (s.position (s.trigger o kind).origin.id a).add (s.range n)

/-- `CoordinateNode::update`. -/
def updateNode (s : Space) (n : Node) : Option Space := do
  return s.setSystem (← s.system.updateNode s.xx n)

/-- `CoordinateSystem::insert`. -/
def insert (s : Space) (n : Node) : Option Space := do
  return s.setSystem (← s.system.insert s.xx n)

/-- `new RangeTriggerNode`, which the node at the origin has to watch. -/
def newBoundary (s : Space) (id : Nat) (kind : Kind) : Space :=
  let n := .boundary id (s.made id)
  let origin := (s.trigger id kind).origin
  let watchers := s.watcherNodes origin
  { s with
    system := s.system.new n
    made := Function.update s.made id (s.made id + 1)
    pRangeTrigger := Function.update s.pRangeTrigger n (some (id, kind))
    range := Function.update s.range n (.num 0)
    watcherNodes := Function.update s.watcherNodes origin (if n ∈ watchers then watchers else watchers ++ [n]) }

/-- The first lines of `install`: the positive boundary. -/
def makePositive (s : Space) (id : Nat) (kind : Kind) : Space × Node :=
  let t := s.trigger id kind
  match t.positive with
  | some n => (s.setRange n (.num 0), n)
  | none =>
    let n := .boundary id (s.made id)
    ((s.newBoundary id kind).setTrigger id kind { t with positive := some n }, n)

/-- The negative boundary. -/
def makeNegative (s : Space) (id : Nat) (kind : Kind) : Space × Node :=
  let t := s.trigger id kind
  match t.negative with
  | some n => (s.setRange n (.num 0), n)
  | none =>
    let n := .boundary id (s.made id)
    ((s.newBoundary id kind).setTrigger id kind { t with negative := some n }, n)

/-- A boundary goes to its place: `old_xx` to `old_zz` and `range` are set before `update`. -/
def extend (s : Space) (n : Node) (old range : Coordinate) : Option Space :=
  let line := fun a => (s.system.line a).setOld n old
  ((s.setSystem { s.system with line := line }).setRange n range).updateNode n

/-- `RangeTrigger::install`; it needs the node at the origin, and that this is in a system. -/
def install (s : Space) (id : Nat) (kind : Kind) : Option Space := do
  let origin := Node.entity (s.trigger id kind).origin
  if s.system.freed origin ∨ !s.system.inSystem origin then none
  let (s, positive) := s.makePositive id kind
  let (s, negative) := s.makeNegative id kind
  let s ← s.insert positive
  let s ← s.insert negative
  let s ← s.extend negative (.num (-FLT_MAX)) (s.trigger id kind).range.neg
  s.extend positive (.num FLT_MAX) (s.trigger id kind).range

/-- `onTriggerUninstall`. -/
def onTriggerUninstall (s : Space) (id : Nat) (kind : Kind) (n : Node) : Space :=
  let origin := (s.trigger id kind).origin
  { s with
    watcherNodes := Function.update s.watcherNodes origin ((s.watcherNodes origin).erase n)
    pRangeTrigger := Function.update s.pRangeTrigger n none }

/-- What `uninstall` does with one boundary. -/
def uninstallBoundary (s : Space) (id : Nat) (kind : Kind) : Option Node → Option Space
  | none => some s
  | some n =>
    if s.system.inSystem n then do
      let s := s.onTriggerUninstall id kind n
      return s.setSystem (← s.system.remove s.xx n)
    else some s

/-- `RangeTrigger::uninstall`. -/
def uninstall (s : Space) (id : Nat) (kind : Kind) : Option Space := do
  let s ← s.uninstallBoundary id kind (s.trigger id kind).positive
  let s ← s.uninstallBoundary id kind (s.trigger id kind).negative
  return s.setTrigger id kind { s.trigger id kind with positive := none, negative := none }

/-- `RangeTrigger::reinstall`. -/
def reinstall (s : Space) (id : Nat) (kind : Kind) (node : EntityNode) : Option Space := do
  let s ← s.uninstall id kind
  (s.setTrigger id kind { s.trigger id kind with origin := node }).install id kind

/-- What `RangeTrigger::update` does with one boundary. -/
def moveBoundary (s : Space) (range : Coordinate) : Option Node → Option Space
  | none => some s
  | some n => (s.setRange n range).updateNode n

/-- `RangeTrigger::update`. -/
def updateTrigger (s : Space) (id : Nat) (kind : Kind) (xz : Coordinate) : Option Space := do
  let t := { s.trigger id kind with range := xz.fabs }
  let s ← (s.setTrigger id kind t).moveBoundary t.range t.positive
  s.moveBoundary t.range.neg t.negative

/-- `installAOITrigger`. -/
def installAOITrigger (s : Space) (id : Nat) : Option Space :=
  if (s.aoiRadius id).le (.num 0) then some s
  else do
    let s ← s.reinstall id .hysteresis (s.entityNode id)
    s.reinstall id .aoi (s.entityNode id)

/-- `uninstallAOITrigger`. -/
def uninstallAOITrigger (s : Space) (id : Nat) : Option Space := do
  let s ← s.uninstall id .aoi
  s.uninstall id .hysteresis

/-- A trigger that is not installed, of an entity in the space, is installed. -/
def installMissing (s : Space) (id : Nat) (kind : Kind) : Option Space :=
  if !(s.trigger id kind).isInstalled ∧ s.contains id then s.install id kind else some s

/-- `0.01f`. -/
def hundredth : Coordinate := .num (10737418 / 2 ^ 30)

/-- `setAoiRadius`. -/
def setAoiRadius (s : Space) (id : Nat) (radius hyst : Coordinate) : Option Space :=
  if (Coordinate.num 512).lt (radius.add hyst) then some (s.setRadius id (.num (512 - 5)))
  else if (Coordinate.num 0).lt radius then do
    let s ← (s.setRadius id radius).updateTrigger id .aoi radius
    let s ← s.installMissing id .aoi
    let s ← s.updateTrigger id .hysteresis (hyst.add radius)
    if hundredth.lt hyst then s.installMissing id .hysteresis else some s
  else (s.setRadius id radius).uninstallAOITrigger id

/-- `addEntityAndEnterWorld`. -/
def addEntityAndEnterWorld (s : Space) (id : Nat) : Option Space := do
  let s ← s.insert (.entity (s.entityNode id))
  s.installAOITrigger id

/-- `Entity::position`: a move by less than `tiny` is ignored. -/
def moved (old pos : Axis → Coordinate) : Axis → Coordinate :=
  match old .x, old .y, old .z, pos .x, pos .y, pos .z with
  | .num x, .num y, .num z, .num x', .num y', .num z' =>
    if (x' - x) ^ 2 + (y' - y) ^ 2 + (z' - z) ^ 2 < tiny ^ 2 then old else pos
  | _, _, _, _, _, _ => pos

/-- `Entity::position` and `EntityCoordinateNode::update`. -/
def moveEntity (s : Space) (id : Nat) (pos : Axis → Coordinate) : Option Space := do
  let s := { s with position := Function.update s.position id (moved (s.position id) pos) }
  let e := s.entityNode id
  let s ← s.updateNode (.entity e)
  (s.watcherNodes e).foldlM updateNode s

/-- `uninstallCoordinateNodes`: the entity gets a new node. -/
def uninstallCoordinateNodes (s : Space) (id : Nat) : Option Space := do
  let system ← s.system.remove s.xx (.entity (s.entityNode id))
  let e : EntityNode := ⟨id, s.made id⟩
  return { s with
    system := system.new (.entity e)
    made := Function.update s.made id (s.made id + 1)
    entityNode := Function.update s.entityNode id e
    watcherNodes := Function.update s.watcherNodes e [] }

/-- `removeEntity`. -/
def removeEntity (s : Space) (id : Nat) : Option Space := do
  let s ← s.uninstallAOITrigger id
  let s ← s.uninstallCoordinateNodes id
  return s.setSystem (← s.system.releaseNodes)

end Space

inductive Action where
  | add (id : Nat)
  | move (id : Nat) (pos : Axis → Coordinate)
  | setAoiRadius (id : Nat) (radius hyst : Coordinate)
  | remove (id : Nat)

def step (s : Space) : Action → Option Space
  | .add id => s.addEntityAndEnterWorld id
  | .move id pos => s.moveEntity id pos
  | .setAoiRadius id radius hyst => s.setAoiRadius id radius hyst
  | .remove id => s.removeEntity id

end GameServer.Coordinates

import GameServer.Aoi.Space
import GameServer.Lib.Linked

/-!
# The coordinate system

The three lists of a space as they lie in memory: every node has a previous and a next
pointer and a stored coordinate on each axis, and `CoordinateSystem` the first node. The
nodes passed in `update` are told of it, which `Aoi.Space` follows; it touches neither the
lists nor a coordinate and is left out here.

A coordinate is a rational number, computed with exactly, or no number, which compares with
nothing. A function has no result where a loop does not end within its bound or where the
code follows a null pointer.
-/

namespace GameServer.Coordinates

open Aoi (Axis Kind FLT_MAX)
open Lib (Links)

/-- A `float`. -/
inductive Coordinate where
  | nan
  | num (v : ℚ)
  deriving DecidableEq, Repr

namespace Coordinate

def lt : Coordinate → Coordinate → Bool
  | .num v, .num w => v < w
  | _, _ => false

def le : Coordinate → Coordinate → Bool
  | .num v, .num w => v ≤ w
  | _, _ => false

def eq : Coordinate → Coordinate → Bool
  | .num v, .num w => v = w
  | _, _ => false

def add : Coordinate → Coordinate → Coordinate
  | .num v, .num w => .num (v + w)
  | _, _ => .nan

def neg : Coordinate → Coordinate
  | .num v => .num (-v)
  | .nan => .nan

def fabs : Coordinate → Coordinate
  | .num v => .num |v|
  | .nan => .nan

end Coordinate

/-- An `EntityCoordinateNode`: the entity it is for and how many nodes had been made for it. -/
structure EntityNode where
  id : Nat
  serial : Nat
  deriving DecidableEq, Repr

/-- `CoordinateNode`; a `RangeTriggerNode` is named by the entity of its trigger in the same way. -/
inductive Node where
  | entity (e : EntityNode)
  | boundary (id serial : Nat)
  deriving DecidableEq, Repr

/-- One axis: the pointers of the nodes, `x_` and `old_xx_`. -/
structure Line extends Links Node where
  coord : Node → Coordinate
  old : Node → Coordinate

namespace Line

def setLinks (s : Line) (l : Links Node) : Line := { s with toLinks := l }

def setCoord (s : Line) (n : Node) (v : Coordinate) : Line := { s with coord := Function.update s.coord n v }

def setOld (s : Line) (n : Node) (v : Coordinate) : Line := { s with old := Function.update s.old n v }

end Line

/-- `moveNodeX`, when the coordinate of `pCurrNode` is greater. -/
def moveBefore (l : Links Node) (pNode pCurrNode : Node) : Links Node :=
  let pPreNode := l.prev pCurrNode
  let l := l.setPrev pCurrNode (some pNode)
  let l := match pPreNode with
    | some p =>
      let l := l.setNext p (some pNode)
      if l.first = some pNode ∧ (l.next pNode).isSome then l.setFirst (l.next pNode) else l
    | none => l.setFirst (some pNode)
  let l := l.setNextOf (l.prev pNode) (l.next pNode)
  let l := l.setPrevOf (l.next pNode) (l.prev pNode)
  (l.setPrev pNode pPreNode).setNext pNode (some pCurrNode)

/-- `moveNodeX`, otherwise. -/
def moveAfter (l : Links Node) (pNode pCurrNode : Node) : Links Node :=
  let pNextNode := l.next pCurrNode
  if pNextNode = some pNode then l
  else
    let l := l.setNext pCurrNode (some pNode)
    let l := l.setPrevOf pNextNode (some pNode)
    let l := l.setNextOf (l.prev pNode) (l.next pNode)
    let l := match l.next pNode with
      | some m =>
        let l := l.setPrev m (l.prev pNode)
        if l.first = some pNode then l.setFirst (l.next pNode) else l
      | none => l
    (l.setPrev pNode (some pCurrNode)).setNext pNode pNextNode

namespace Line

/-- `moveNodeX` to `moveNodeZ`. -/
def moveNode (s : Line) (pNode : Node) (px : Coordinate) (pCurrNode : Node) : Line :=
  if px.lt (s.coord pCurrNode) then s.setLinks (moveBefore s.toLinks pNode pCurrNode)
  else s.setLinks (moveAfter s.toLinks pNode pCurrNode)

/-- The first loop of `update`, down the list, with a bound on its passes; `xx` is what
`pNode->xx()` returns. -/
def passDown (pNode : Node) (xx : Coordinate) : Nat → Line → Option Line
  | 0, _ => none
  | k + 1, s =>
    match s.prev pNode with
    | none => some s
    | some c =>
      if c ≠ pNode ∧ xx.lt (s.coord c) then passDown pNode xx k ((s.setCoord pNode (s.coord c)).moveNode pNode xx c)
      else some s

/-- The second loop, up the list. -/
def passUp (pNode : Node) (xx : Coordinate) : Nat → Line → Option Line
  | 0, _ => none
  | k + 1, s =>
    match s.next pNode with
    | none => some s
    | some c =>
      if c ≠ pNode ∧ (s.coord c).lt xx then passUp pNode xx k ((s.setCoord pNode (s.coord c)).moveNode pNode xx c)
      else some s

/-- The condition to leave `while (true)`. -/
def inPlace (s : Line) (pNode : Node) (xx : Coordinate) : Bool :=
  (match s.prev pNode with | none => true | some c => (s.coord c).le xx) &&
    (match s.next pNode with | none => true | some c => xx.le (s.coord c))

/-- `while (true)`, with a bound on its rounds and on the passes in each. -/
def rounds (pNode : Node) (xx : Coordinate) (passes : Nat) : Nat → Line → Option Line
  | 0, _ => none
  | k + 1, s => do
    let s ← passDown pNode xx passes s
    let s ← passUp pNode xx passes s
    if s.inPlace pNode xx then return s.setCoord pNode xx
    rounds pNode xx passes k s

/-- The part of `update` for the `x` or the `z` axis: nothing to do when the coordinate is the old one. -/
def updateChanged (s : Line) (pNode : Node) (xx : Coordinate) (bound : Nat) : Option Line :=
  if xx.eq (s.old pNode) then some s else rounds pNode xx bound bound s

/-- The part of `insert` for one axis of a list that is not empty. -/
def pushFront (s : Line) (pNode : Node) : Option Line :=
  match s.first with
  | none => none
  | some f =>
    let s := (s.setOld pNode (.num (-FLT_MAX))).setCoord pNode (s.coord f)
    some (s.setLinks (((s.setPrev f (some pNode)).setNext pNode (some f)).setFirst (some pNode)))

/-- The part of `insert` for one axis of an empty list. -/
def begin (s : Line) (pNode : Node) (xx : Coordinate) : Line :=
  let s := (s.setCoord pNode xx).setOld pNode xx
  s.setLinks (((s.setFirst (some pNode)).setPrev pNode none).setNext pNode none)

/-- The part of `removeReal` for one axis. -/
def unlink (s : Line) (pNode : Node) : Option Line := do
  let l ← if s.first = some pNode then
      let l := s.setFirst (s.next pNode)
      some (l.setPrevOf l.first none)
    else match s.prev pNode with
      | none => none
      | some p =>
        let l := s.setNext p (s.next pNode)
        some (l.setPrevOf (l.next pNode) (l.prev pNode))
  return s.setLinks ((l.setPrev pNode none).setNext pNode none)

end Line

/-- `CoordinateSystem`, with what its nodes hold. -/
structure System where
  line : Axis → Line
  /-- `pCoordinateSystem_` of a node is set. -/
  inSystem : Node → Bool
  /-- `COORDINATE_NODE_FLAG_REMOVED`. -/
  removed : Node → Bool
  size : Nat
  dels : List Node
  delsCount : Nat
  releases : List Node
  /-- The nodes that were deleted. -/
  freed : Node → Bool

namespace System

def empty : System where
  line _ := ⟨⟨none, fun _ => none, fun _ => none⟩, fun _ => .num (-FLT_MAX), fun _ => .num (-FLT_MAX)⟩
  inSystem _ := false
  removed _ := false
  size := 0
  dels := []
  delsCount := 0
  releases := []
  freed _ := false

def setLines (s : System) (x y z : Line) : System :=
  { s with line := fun | .x => x | .y => y | .z => z }

/-- `new`: the node as its constructor leaves it. -/
def new (s : System) (n : Node) : System :=
  { s with
    line := fun a => (((s.line a).setLinks (((s.line a).setPrev n none).setNext n none)).setCoord n (.num (-FLT_MAX))).setOld n (.num (-FLT_MAX))
    inSystem := Function.update s.inSystem n false
    removed := Function.update s.removed n false }

/-- `CoordinateSystem::update`; the `y` axis has no test for a change. -/
def update (s : System) (xx : Node → Axis → Coordinate) (pNode : Node) : Option System := do
  let bound := s.size + 1
  let x ← (s.line .x).updateChanged pNode (xx pNode .x) bound
  let y ← (s.line .y).rounds pNode (xx pNode .y) bound bound
  let z ← (s.line .z).updateChanged pNode (xx pNode .z) bound
  return s.setLines (x.setOld pNode (xx pNode .x)) (y.setOld pNode (xx pNode .y)) (z.setOld pNode (xx pNode .z))

def isEmpty (s : System) : Bool :=
  (s.line .x).first.isNone && (s.line .y).first.isNone && (s.line .z).first.isNone

/-- `CoordinateSystem::insert`. -/
def insert (s : System) (xx : Node → Axis → Coordinate) (pNode : Node) : Option System :=
  if s.isEmpty then
    some { s with
      line := fun a => (s.line a).begin pNode (xx pNode a)
      inSystem := Function.update s.inSystem pNode true
      size := 1 }
  else do
    let x ← (s.line .x).pushFront pNode
    let y ← (s.line .y).pushFront pNode
    let z ← (s.line .z).pushFront pNode
    let s := s.setLines x y z
    let s := { s with inSystem := Function.update s.inSystem pNode true, size := s.size + 1 }
    s.update xx pNode

/-- `CoordinateNode::onRemove`. -/
def onRemove (s : System) (pNode : Node) : System :=
  let old := fun a => (s.line a).setOld pNode ((s.line a).coord pNode)
  s.setLines ((old .x).setCoord pNode (.num (-FLT_MAX))) (old .y) (old .z)

/-- `CoordinateSystem::remove`. -/
def remove (s : System) (xx : Node → Axis → Coordinate) (pNode : Node) : Option System := do
  let s ← (s.onRemove pNode).update xx pNode
  let s := { s with removed := Function.update s.removed pNode true }
  if pNode ∈ s.dels then return s
  return { s with dels := s.dels ++ [pNode], delsCount := s.delsCount + 1 }

/-- `removeReal`. -/
def removeReal (s : System) (pNode : Node) : Option System :=
  if !s.inSystem pNode then some s
  else do
    let x ← (s.line .x).unlink pNode
    let y ← (s.line .y).unlink pNode
    let z ← (s.line .z).unlink pNode
    let s := s.setLines x y z
    return { s with
      inSystem := Function.update s.inSystem pNode false
      releases := s.releases ++ [pNode]
      size := s.size - 1 }

/-- `removeDelNodes`. -/
def removeDelNodes (s : System) : Option System :=
  if s.delsCount = 0 then some s
  else do
    let s ← s.dels.foldlM removeReal s
    return { s with dels := [], delsCount := 0 }

/-- `releaseNodes`. -/
def releaseNodes (s : System) : Option System := do
  let s ← s.removeDelNodes
  return { s with freed := s.releases.reverse.foldl (fun freed n => Function.update freed n true) s.freed, releases := [] }

/-- `CoordinateNode::update`; a deleted node cannot be asked. -/
def updateNode (s : System) (xx : Node → Axis → Coordinate) (pNode : Node) : Option System :=
  if s.freed pNode then none
  else if s.inSystem pNode then s.update xx pNode else some s

end System

end GameServer.Coordinates

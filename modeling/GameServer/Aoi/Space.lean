import GameServer.Lib.Run
import Mathlib.Algebra.Order.Ring.Rat
import Mathlib.Algebra.Order.Group.Abs

/-!
# The space

Every entity has a node in each of three lists ordered by `x`, `y` and `z`, and so have the
boundaries of its two range triggers, the AOI and the hysteresis area around it. When an
entity moves, its nodes are moved past their neighbours one by one, and a boundary and an
entity node that pass each other decide from the entity's coordinates, old and new, whether
it enters or leaves the trigger's range.

Coordinates are rational numbers and computed exactly. A node is named by the entity it
belongs to and its part in it. `Layout` is what the range tests read, `Views` what the
callbacks write; the lists and the coordinates they are ordered by are read by
`CoordinateSystem::update` alone. Here entities are added and moved; `MapManager` takes them
out again. `onEnteredAoI` and `onLeaveAoI` do nothing to the space.
-/

namespace GameServer.Aoi

inductive Axis where
  | x
  | y
  | z
  deriving DecidableEq, Repr

instance decidableForallAxis {p : Axis → Prop} [∀ a, Decidable (p a)] : Decidable (∀ a, p a) :=
  decidable_of_iff (p .x ∧ p .y ∧ p .z)
    ⟨fun ⟨x, y, z⟩ a => match a with | .x => x | .y => y | .z => z, fun all => ⟨all .x, all .y, all .z⟩⟩

/-- The greatest `float`. -/
def FLT_MAX : ℚ := (2 ^ 128 - 2 ^ 104 : Nat)

/-- `pAOITrigger_` and `pAOIHysteresisAreaTrigger_`. -/
inductive Kind where
  | aoi
  | hysteresis
  deriving DecidableEq, Repr

instance decidableForallKind {p : Kind → Prop} [∀ kind, Decidable (p kind)] : Decidable (∀ kind, p kind) :=
  decidable_of_iff (p .aoi ∧ p .hysteresis)
    ⟨fun ⟨aoi, hysteresis⟩ kind => match kind with | .aoi => aoi | .hysteresis => hysteresis,
      fun all => ⟨all .aoi, all .hysteresis⟩⟩

/-- `negativeBoundary_` and `positiveBoundary_`. -/
inductive Side where
  | negative
  | positive
  deriving DecidableEq, Repr

/-- A `RangeTriggerNode`: the boundary of a trigger around the entity `origin`. -/
structure Boundary where
  origin : Nat
  kind : Kind
  side : Side
  deriving DecidableEq, Repr

/-- `CoordinateNode`. -/
inductive Node where
  | entity (id : Nat)
  | boundary (b : Boundary)
  deriving DecidableEq, Repr

/-- `COORDINATE_NODE_FLAG_HIDE`. -/
def Node.hidden : Node → Bool
  | .entity _ => false
  | .boundary _ => true

/-- `EntityRef`, with the bits of its flags. -/
structure EntityRef where
  id : Nat
  pEntity : Option Nat
  enterPending : Bool
  leavePending : Bool
  normal : Bool
  deriving DecidableEq, Repr

/-- What `onEnterAOI` makes of a reference that is leaving. -/
def EntityRef.revive (ref : EntityRef) : EntityRef := ⟨ref.id, some ref.id, !ref.normal, false, ref.normal⟩

/-- What `_onLeaveAOI` makes of a reference. -/
def EntityRef.leave (ref : EntityRef) : EntityRef :=
  { ref with pEntity := none, enterPending := false, leavePending := true }

structure Witness where
  aoiRadius : ℚ
  aoiHysteresisArea : ℚ
  /-- The range of each trigger, the same on every axis; `none` is a null pointer. -/
  range : Kind → Option ℚ

namespace Witness

/-- `Witness()`. -/
def fresh : Witness := ⟨0, 5, fun _ => none⟩

def setRange (w : Witness) (kind : Kind) (range : ℚ) : Witness :=
  { w with range := Function.update w.range kind (some |range|) }

/-- `setAoiRadius`, of an entity that is in no space; `hyst` is compared with `0.01f`. -/
def setAoiRadius (w : Witness) (radius hyst : ℚ) : Witness :=
  let w := { w with aoiRadius := radius, aoiHysteresisArea := hyst }
  if radius + hyst > 512 then { w with aoiRadius := 512 - 5, aoiHysteresisArea := 5 }
  else if radius > 0 then
    let w := w.setRange .aoi radius
    if hyst > 10737418 / 2 ^ 30 ∨ (w.range .hysteresis).isSome then w.setRange .hysteresis (hyst + radius) else w
  else w

end Witness

/-- What the range tests read. -/
structure Layout where
  position : Nat → Axis → ℚ
  witness : Nat → Witness
  /-- `range_xz_` and `range_y_` of the boundaries, and the ones before. -/
  range : Boundary → Axis → ℚ
  oldRange : Boundary → Axis → ℚ
  /-- `old_xx_`, `old_yy_` and `old_zz_`. -/
  old : Node → Axis → ℚ

/-- What the callbacks write. -/
structure Views where
  aoiEntities : Nat → List EntityRef
  /-- `witnesses_`. -/
  witnesses : Nat → List Nat

namespace Views

/-- Change the first reference with this id. -/
def changeRef (id : Nat) (f : EntityRef → EntityRef) : List EntityRef → List EntityRef
  | [] => []
  | ref :: refs => if ref.id = id then f ref :: refs else ref :: changeRef id f refs

def setRefs (v : Views) (o : Nat) (refs : List EntityRef) : Views :=
  { v with aoiEntities := Function.update v.aoiEntities o refs }

/-- `addWitnessed`. -/
def addWitnessed (v : Views) (e o : Nat) : Views :=
  { v with witnesses := Function.update v.witnesses e (v.witnesses e ++ [o]) }

/-- `delWitnessed`. -/
def delWitnessed (v : Views) (e o : Nat) : Views :=
  { v with witnesses := Function.update v.witnesses e ((v.witnesses e).filter (· ≠ o)) }

/-- `onEnterAOI` of the witness of `o`. -/
def onEnterAOI (v : Views) (o : Nat) (kind : Kind) (e : Nat) : Views :=
  if kind = .hysteresis then v
  else match (v.aoiEntities o).find? (fun ref => ref.id = e) with
    | some ref =>
      if ref.leavePending then
        (v.setRefs o (changeRef e EntityRef.revive (v.aoiEntities o))).addWitnessed e o
      else v
    | none => (v.setRefs o (v.aoiEntities o ++ [⟨e, some e, true, false, false⟩])).addWitnessed e o

/-- `_onLeaveAOI`, for the first reference with the id `e`. -/
def leaveRef (v : Views) (o e : Nat) (ref : EntityRef) : Views :=
  let v := v.setRefs o (changeRef e EntityRef.leave (v.aoiEntities o))
  match ref.pEntity with
  | some e' => v.delWitnessed e' o
  | none => v

/-- `onLeaveAOI` of the witness `w` of `o`. -/
def onLeaveAOI (v : Views) (o : Nat) (w : Witness) (kind : Kind) (e : Nat) : Views :=
  if (w.range .hysteresis).isSome ∧ kind ≠ .hysteresis then v
  else match (v.aoiEntities o).find? (fun ref => ref.id = e) with
    | some ref => v.leaveRef o e ref
    | none => v

end Views

/-- `AOITrigger::onEnter`. -/
def Boundary.onEnter (b : Boundary) : Node → Views → Views
  | .entity e, v => v.onEnterAOI b.origin b.kind e
  | .boundary _, v => v

namespace Layout

/-- `xx`, `yy` and `zz`. -/
def xx (l : Layout) : Node → Axis → ℚ
  | .entity id, a => l.position id a
  | .boundary b, a => l.position b.origin a + l.range b a

/-- `isInXRange` to `isInZRange`. -/
def isInRange (l : Layout) (b : Boundary) (n : Node) (a : Axis) : Bool :=
  let origin := l.position b.origin a
  origin - |l.range b a| ≤ l.xx n a && l.xx n a ≤ origin + |l.range b a|

/-- `wasInXRange` to `wasInZRange`. -/
def wasInRange (l : Layout) (b : Boundary) (n : Node) (isfront : Bool) (a : Axis) : Bool :=
  let origin := l.old (.boundary b) a - l.oldRange b a
  let lowerBound := origin - |l.oldRange b a|
  let upperBound := origin + |l.oldRange b a|
  if l.old n a = lowerBound then !isfront
  else if l.old n a = upperBound then isfront
  else lowerBound ≤ l.old n a && l.old n a ≤ upperBound

/-- `AOITrigger::onLeave`. -/
def onLeave (l : Layout) (b : Boundary) : Node → Views → Views
  | .entity e, v => v.onLeaveAOI b.origin (l.witness b.origin) b.kind e
  | .boundary _, v => v

/-- The end of `onNodePassX` to `onNodePassZ`. -/
def change (l : Layout) (b : Boundary) (n : Node) (wasIn isIn : Bool) (v : Views) : Views :=
  if wasIn = isIn then v else if isIn then b.onEnter n v else l.onLeave b n v

/-- `RangeTrigger::onNodePassX`. -/
def onNodePassX (l : Layout) (b : Boundary) (n : Node) (isfront : Bool) (v : Views) : Views :=
  if n = .entity b.origin then v
  else
    let was := l.wasInRange b n isfront
    let is := l.isInRange b n
    if was .z ≠ is .z then v
    else if was .y ≠ is .y then v
    else l.change b n (was .x && was .y && was .z) (is .x && is .y && is .z) v

/-- `RangeTrigger::onNodePassY`. -/
def onNodePassY (l : Layout) (b : Boundary) (n : Node) (isfront : Bool) (v : Views) : Views :=
  if n = .entity b.origin then v
  else
    let was := l.wasInRange b n isfront
    let is := l.isInRange b n
    if was .z ≠ is .z then v
    else if was .y = is .y then v
    else l.change b n (was .x && was .y && was .z) (is .x && is .y && is .z) v

/-- `RangeTrigger::onNodePassZ`. -/
def onNodePassZ (l : Layout) (b : Boundary) (n : Node) (isfront : Bool) (v : Views) : Views :=
  if n = .entity b.origin then v
  else
    let was := l.wasInRange b n isfront
    let is := l.isInRange b n
    if was .z = is .z then v
    else l.change b n (was .x && was .y && was .z) (is .x && is .y && is .z) v

/-- `onNodePassX` to `onNodePassZ` of a node that `other` passes. -/
def onNodePass (l : Layout) (a : Axis) (n other : Node) (isfront : Bool) (v : Views) : Views :=
  match n, a with
  | .entity _, _ => v
  | .boundary b, .x => l.onNodePassX b other isfront v
  | .boundary b, .y => l.onNodePassY b other isfront v
  | .boundary b, .z => l.onNodePassZ b other isfront v

/-- `pNode` passes `pCurrNode`, moving up the list or down. -/
def pass (l : Layout) (a : Axis) (pNode pCurrNode : Node) (up : Bool) (v : Views) : Views :=
  let v := if pNode.hidden then v else l.onNodePass a pCurrNode pNode up v
  if pCurrNode.hidden then v else l.onNodePass a pNode pCurrNode (!up) v

end Layout

structure Space where
  layout : Layout
  views : Views
  /-- The lists from `first_x_coordinateNode_` to `first_z_coordinateNode_`. -/
  list : Axis → List Node
  /-- `x_`, `y_` and `z_`. -/
  coord : Node → Axis → ℚ
  watcherNodes : Nat → List Boundary

def empty : Space where
  layout := ⟨fun _ _ => 0, fun _ => .fresh, fun _ _ => 0, fun _ _ => 0, fun _ _ => -FLT_MAX⟩
  views := ⟨fun _ => [], fun _ => []⟩
  list _ := []
  coord _ _ := -FLT_MAX
  watcherNodes _ := []

namespace Space

def setCoord (s : Space) (n : Node) (a : Axis) (v : ℚ) : Space :=
  { s with coord := Function.update s.coord n (Function.update (s.coord n) a v) }

def setList (s : Space) (a : Axis) (nodes : List Node) : Space :=
  { s with list := Function.update s.list a nodes }

def setOld (s : Space) (n : Node) (old : Axis → ℚ) : Space :=
  { s with layout := { s.layout with old := Function.update s.layout.old n old } }

/-- The nodes before a node, the nearest first. -/
def prevs (s : Space) (a : Axis) (n : Node) : List Node := ((s.list a).takeWhile (· ≠ n)).reverse

/-- The nodes after a node. -/
def nexts (s : Space) (a : Axis) (n : Node) : List Node := ((s.list a).dropWhile (· ≠ n)).tail

/-- One pass of the loops in `update`: the node is moved past its neighbour, which makes
`nodes` of the list, and the two are told. -/
def pass (s : Space) (a : Axis) (pNode pCurrNode : Node) (up : Bool) (nodes : List Node) : Space :=
  let s := (s.setCoord pNode a (s.coord pCurrNode a)).setList a nodes
  { s with views := s.layout.pass a pNode pCurrNode up s.views }

/-- The first loop: down the list, with `prev` before the node and `next` after it. -/
def passDown (a : Axis) (n : Node) : List Node → List Node → Space → Space
  | [], _, s => s
  | c :: prev, next, s =>
    if s.coord c a > s.layout.xx n a then
      passDown a n prev (c :: next) (s.pass a n c false (prev.reverse ++ n :: c :: next))
    else s

/-- The second loop: up the list. -/
def passUp (a : Axis) (n : Node) : List Node → List Node → Space → Space
  | _, [], s => s
  | prev, c :: next, s =>
    if s.coord c a < s.layout.xx n a then
      passUp a n (c :: prev) next (s.pass a n c true ((c :: prev).reverse ++ n :: next))
    else s

/-- One round of `while (true)`. -/
def round (s : Space) (a : Axis) (n : Node) : Space :=
  let s := passDown a n (s.prevs a n) (s.nexts a n) s
  passUp a n (s.prevs a n) (s.nexts a n) s

/-- The condition to end the rounds. -/
def inPlace (s : Space) (a : Axis) (n : Node) : Bool :=
  (match s.prevs a n with | [] => true | c :: _ => s.layout.xx n a ≥ s.coord c a) &&
    (match s.nexts a n with | [] => true | c :: _ => s.layout.xx n a ≤ s.coord c a)

/-- `while (true)`, with a bound on the rounds. -/
def rounds (a : Axis) (n : Node) : Nat → Space → Option Space
  | 0, _ => none
  | k + 1, s =>
    let s := s.round a n
    if s.inPlace a n then some (s.setCoord n a (s.layout.xx n a)) else rounds a n k s

/-- The part of `update` for one axis; `y` has no test for a change. -/
def updateAxis (s : Space) (a : Axis) (n : Node) : Option Space :=
  if a ≠ .y ∧ s.layout.xx n a = s.layout.old n a then some s
  else rounds a n ((s.list a).length + 1) s

/-- `resetOld`. -/
def resetOld (s : Space) (n : Node) : Space :=
  let s := s.setOld n (s.layout.xx n)
  match n with
  | .entity _ => s
  | .boundary b => { s with layout := { s.layout with oldRange := Function.update s.layout.oldRange b (s.layout.range b) } }

/-- `CoordinateSystem::update`. -/
def update (s : Space) (n : Node) : Option Space := do
  let s ← s.updateAxis .x n
  let s ← s.updateAxis .y n
  let s ← s.updateAxis .z n
  return s.resetOld n

/-- `CoordinateSystem::insert`. -/
def insert (s : Space) (n : Node) : Option Space :=
  if s.list .x = [] ∧ s.list .y = [] ∧ s.list .z = [] then
    let s := { s with list := fun _ => [n], coord := Function.update s.coord n (s.layout.xx n) }
    some (s.resetOld n)
  else
    let s := s.setOld n fun _ => -FLT_MAX
    let first := fun a => match s.list a with | [] => -FLT_MAX | c :: _ => s.coord c a
    update { s with coord := Function.update s.coord n first, list := fun a => n :: s.list a } n

/-- `new RangeTriggerNode`. -/
def newBoundary (s : Space) (b : Boundary) : Space :=
  { s with
    layout := { s.layout with
      range := Function.update s.layout.range b fun _ => 0
      oldRange := Function.update s.layout.oldRange b fun _ => 0
      old := Function.update s.layout.old (.boundary b) fun _ => -FLT_MAX }
    coord := Function.update s.coord (.boundary b) fun _ => -FLT_MAX
    watcherNodes := Function.update s.watcherNodes b.origin (s.watcherNodes b.origin ++ [b]) }

/-- The old coordinates and the ranges that `install` gives a boundary. -/
def setBoundary (s : Space) (b : Boundary) (old range : ℚ) : Space :=
  { s with layout := { s.layout with
      range := Function.update s.layout.range b fun _ => range
      oldRange := Function.update s.layout.oldRange b fun _ => range
      old := Function.update s.layout.old (.boundary b) fun _ => old } }

/-- `RangeTrigger::install`. -/
def install (s : Space) (o : Nat) (kind : Kind) (range : ℚ) : Option Space := do
  let positive : Boundary := ⟨o, kind, .positive⟩
  let negative : Boundary := ⟨o, kind, .negative⟩
  let s := (s.newBoundary positive).newBoundary negative
  let s ← s.insert (.boundary positive)
  let s ← s.insert (.boundary negative)
  let s ← (s.setBoundary negative (-FLT_MAX) (-range)).update (.boundary negative)
  (s.setBoundary positive FLT_MAX range).update (.boundary positive)

/-- `installAOITrigger`, of an entity whose triggers are not installed. -/
def installAOITrigger (s : Space) (o : Nat) : Option Space :=
  let w := s.layout.witness o
  match w.range .aoi with
  | none => some s
  | some range =>
    if w.aoiRadius ≤ 0 then some s
    else do
      let s ← match w.range .hysteresis with
        | none => some s
        | some range => s.install o .hysteresis range
      s.install o .aoi range

/-- `addEntityAndEnterWorld`. -/
def addEntityAndEnterWorld (s : Space) (id : Nat) : Option Space := do
  let s ← s.insert (.entity id)
  s.installAOITrigger id

/-- `EntityCoordinateNode::update`. -/
def updateEntity (s : Space) (id : Nat) : Option Space := do
  let s ← s.update (.entity id)
  (s.watcherNodes id).foldlM (fun s b => s.update (.boundary b)) s

def setPosition (s : Space) (id : Nat) (pos : Axis → ℚ) : Space :=
  { s with layout := { s.layout with position := Function.update s.layout.position id pos } }

/-- An entity that is about to be added: at its position, with its witness attached. -/
def newEntity (s : Space) (id : Nat) (pos : Axis → ℚ) (w : Witness) : Space :=
  let s := s.setPosition id pos
  { s with layout := { s.layout with witness := Function.update s.layout.witness id w } }

end Space

/-- `0.0004f`. -/
def tiny : ℚ := 13743895 / 2 ^ 35

/-- `Entity::position`: a move by less than `tiny` is ignored. -/
def moved (old pos : Axis → ℚ) : Axis → ℚ :=
  if (pos .x - old .x) ^ 2 + (pos .y - old .y) ^ 2 + (pos .z - old .z) ^ 2 < tiny ^ 2 then old else pos

inductive Action where
  /-- A new entity, its radius and hysteresis set, enters at a position. -/
  | add (id : Nat) (pos : Axis → ℚ) (radius hyst : ℚ)
  | move (id : Nat) (pos : Axis → ℚ)

/-- The witness of a new entity: `attach(this, 5, 1)`, and the radius it is given then. -/
def newWitness (radius hyst : ℚ) : Witness := (Witness.fresh.setAoiRadius 5 1).setAoiRadius radius hyst

def step (s : Space) : Action → Option Space
  | .add id pos radius hyst =>
    if .entity id ∈ s.list .x then none
    else (s.newEntity id pos (newWitness radius hyst)).addEntityAndEnterWorld id
  | .move id pos =>
    if .entity id ∈ s.list .x then (s.setPosition id (moved (s.layout.position id) pos)).updateEntity id else none

end GameServer.Aoi

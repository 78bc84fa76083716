import GameServer.Coordinates.Space

/-!
# The witness of an entity

A witness keeps a reference to every entity that is in its area. What its triggers do to the coordinate system is in
`Coordinates.Space`; here they have a range and are installed or not, and entities enter and leave the area in any order, also
while a trigger is being installed or its range changed. An entity is a pointer, and `id` gives the ids.

Of the lists `witnesses_` only what this witness puts in them is kept. `lastBasePos`, `clientAOISize_` and `witnesses_count_` are
written and never read, and the callbacks `onEnteredAoI` and `onLeaveAoI` print a line; they are left out.
-/

namespace GameServer.Witnesses

open Aoi (EntityRef Kind)
open Aoi.Views (changeRef)
open Coordinates (Coordinate)

/-- An `AOITrigger`. -/
structure Trigger where
  range : Coordinate
  installed : Bool
  deriving DecidableEq, Repr

structure Witness where
  pEntity : Option Nat
  aoiRadius : Coordinate
  aoiHysteresisArea : Coordinate
  /-- `pAOITrigger_` and `pAOIHysteresisAreaTrigger_`. -/
  trigger : Kind → Option Trigger
  aoiEntities : List EntityRef
  witnesses : Nat → List Nat
  /-- The node of an entity is in a coordinate system. -/
  inSystem : Nat → Bool

/-- `Witness()`. -/
def Witness.fresh : Witness := ⟨none, .num 0, .num 5, fun _ => none, [], fun _ => [], fun _ => false⟩

/-- An entity enters or leaves the range of a trigger. -/
structure Event where
  enters : Bool
  pEntity : Nat
  deriving DecidableEq, Repr

/-- What `onEnterAOI` makes of a reference that is leaving. -/
def revive (id : Nat → Nat) (e : Nat) (ref : EntityRef) : EntityRef := ⟨id e, some e, !ref.normal, false, ref.normal⟩

namespace Witness

variable (id : Nat → Nat)

def setRefs (s : Witness) (refs : List EntityRef) : Witness := { s with aoiEntities := refs }

def setTrigger (s : Witness) (kind : Kind) (t : Option Trigger) : Witness :=
  { s with trigger := Function.update s.trigger kind t }

/-- `e->addWitnessed(pEntity_)`. A function has no result where the code follows a null pointer. -/
def addWitnessed (s : Witness) (e : Nat) : Option Witness := do
  let o ← s.pEntity
  return { s with witnesses := Function.update s.witnesses e (s.witnesses e ++ [id o]) }

/-- `e->delWitnessed(pEntity_)`. -/
def delWitnessed (s : Witness) (e : Nat) : Option Witness := do
  let o ← s.pEntity
  return { s with witnesses := Function.update s.witnesses e ((s.witnesses e).filter (· ≠ id o)) }

def onEnterAOI (s : Witness) (kind : Kind) (e : Nat) : Option Witness :=
  if kind = .hysteresis then some s
  else do
    let _ ← s.pEntity
    match s.aoiEntities.find? (fun ref => ref.id = id e) with
    | some ref =>
      if ref.leavePending then (s.setRefs (changeRef (id e) (revive id e) s.aoiEntities)).addWitnessed id e else return s
    | none => (s.setRefs (s.aoiEntities ++ [⟨id e, some e, true, false, false⟩])).addWitnessed id e

/-- `if (ref->pEntity()) ref->pEntity()->delWitnessed(pEntity_)`. -/
def unwitness (s : Witness) (ref : EntityRef) : Option Witness :=
  match ref.pEntity with
  | some e => s.delWitnessed id e
  | none => some s

def onLeaveAOI (s : Witness) (kind : Kind) (e : Nat) : Option Witness :=
  if (s.trigger .hysteresis).isSome ∧ kind ≠ .hysteresis then some s
  else do
    let _ ← s.pEntity
    match s.aoiEntities.find? (fun ref => ref.id = id e) with
    | some ref =>
      let s ← s.unwitness id ref
      return s.setRefs (changeRef (id e) EntityRef.leave s.aoiEntities)
    | none => return s

/-- `AOITrigger::onEnter` and `AOITrigger::onLeave`. -/
def deliver (kind : Kind) (s : Witness) (event : Event) : Option Witness :=
  if event.enters then s.onEnterAOI id kind event.pEntity else s.onLeaveAOI id kind event.pEntity

/-- A trigger is installed, and what is in its range, or no longer is, comes to be known. -/
def install (s : Witness) (kind : Kind) (range : Coordinate) (events : List Event) : Option Witness :=
  events.foldlM (deliver id kind) (s.setTrigger kind (some ⟨range, true⟩))

/-- `RangeTrigger::update`. -/
def updateTrigger (s : Witness) (kind : Kind) (t : Trigger) (range : Coordinate) (events : List Event) : Option Witness :=
  if t.installed then s.install id kind range.fabs events else some (s.setTrigger kind (some ⟨range.fabs, false⟩))

/-- What `setAoiRadius` does with a trigger: it is made or updated, and installed when the entity is in a space. -/
def place (s : Witness) (kind : Kind) (range : Coordinate) (events : List Event) : Option Witness :=
  let t := (s.trigger kind).getD ⟨range, false⟩
  if !t.installed ∧ s.pEntity.any s.inSystem then s.install id kind range.fabs events
  else s.updateTrigger id kind t range events

/-- `_onLeaveAOI` for every reference. -/
def leaveAll (s : Witness) : Option Witness := do
  let s ← s.aoiEntities.foldlM (unwitness id) s
  return s.setRefs (s.aoiEntities.map EntityRef.leave)

def uninstallAOITrigger (s : Witness) : Option Witness :=
  leaveAll id { s with trigger := fun kind => (s.trigger kind).map fun t => { t with installed := false } }

def setAoiRadius (s : Witness) (radius hyst : Coordinate) (aoi hysteresis : List Event) : Option Witness :=
  let s := { s with aoiRadius := radius, aoiHysteresisArea := hyst }
  if (Coordinate.num 512).lt (radius.add hyst) then some { s with aoiRadius := .num (512 - 5), aoiHysteresisArea := .num 5 }
  else if (Coordinate.num 0).lt radius ∧ s.pEntity.isSome then do
    let s ← s.place id .aoi radius aoi
    if Coordinates.Space.hundredth.lt hyst then s.place id .hysteresis (hyst.add radius) hysteresis
    else match s.trigger .hysteresis with
      | some t => s.updateTrigger id .hysteresis t (hyst.add radius) hysteresis
      | none => return s
  else s.uninstallAOITrigger id

def attach (s : Witness) (pEntity : Nat) (radius hyst : Coordinate) (aoi hysteresis : List Event) : Option Witness :=
  { s with pEntity := some pEntity }.setAoiRadius id radius hyst aoi hysteresis

/-- `RangeTrigger::reinstall`, of a trigger that is there; it needs the node of the entity in a coordinate system. -/
def reinstall (s : Witness) (kind : Kind) (events : List Event) : Option Witness :=
  match s.trigger kind with
  | none => some s
  | some t => if s.pEntity.any s.inSystem then s.install id kind t.range events else none

def installAOITrigger (s : Witness) (aoi hysteresis : List Event) : Option Witness :=
  if (s.trigger .aoi).isNone ∨ s.aoiRadius.le (.num 0) ∨ s.pEntity.isNone then some s
  else do
    let s ← s.reinstall id .hysteresis hysteresis
    s.reinstall id .aoi aoi

/-- `onEnterSpace`. -/
def onEnterSpace (s : Witness) (aoi hysteresis : List Event) : Option Witness := s.installAOITrigger id aoi hysteresis

def onLeaveSpace (s : Witness) : Option Witness := do
  let s ← s.uninstallAOITrigger id
  let s ← s.aoiEntities.foldlM (unwitness id) s
  return s.setRefs []

def resetAOIEntities (s : Witness) : Witness :=
  s.setRefs ((s.aoiEntities.filter (!·.leavePending)).map fun ref => ⟨ref.id, ref.pEntity, true, false, false⟩)

/-- `clear`, which asks no reference whether it has an entity. -/
def clear (s : Witness) : Option Witness := do
  let s ← s.aoiEntities.foldlM (fun s ref => ref.pEntity.bind (s.delWitnessed id)) s
  return { s with
    pEntity := none
    aoiRadius := .num 0
    aoiHysteresisArea := .num 5
    trigger := fun _ => none
    aoiEntities := [] }

def detach (s : Witness) : Option Witness := s.clear id

end Witness

inductive Action where
  | attach (pEntity : Nat) (radius hyst : Coordinate) (aoi hysteresis : List Event)
  | setAoiRadius (radius hyst : Coordinate) (aoi hysteresis : List Event)
  /-- The node of an entity comes into a coordinate system, or out of it. -/
  | node (pEntity : Nat) (inSystem : Bool)
  | onEnterSpace (aoi hysteresis : List Event)
  | onLeaveSpace
  | event (kind : Kind) (event : Event)
  | resetAOIEntities
  | detach

/-- A trigger that is not installed tells of nothing. -/
def step (id : Nat → Nat) (s : Witness) : Action → Option Witness
  | .attach pEntity radius hyst aoi hysteresis => s.attach id pEntity radius hyst aoi hysteresis
  | .setAoiRadius radius hyst aoi hysteresis => s.setAoiRadius id radius hyst aoi hysteresis
  | .node pEntity inSystem => some { s with inSystem := Function.update s.inSystem pEntity inSystem }
  | .onEnterSpace aoi hysteresis => s.onEnterSpace id aoi hysteresis
  | .onLeaveSpace => s.onLeaveSpace id
  | .event kind event => if (s.trigger kind).any (·.installed) then s.deliver id kind event else none
  | .resetAOIEntities => some s.resetAOIEntities
  | .detach => s.detach id

end GameServer.Witnesses

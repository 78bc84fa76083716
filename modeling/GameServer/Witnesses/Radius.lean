import Mathlib.Tactic.NormNum
import GameServer.Lib.Run
import GameServer.Witnesses.Witness

/-!
# The radius of a witness and its triggers

`setAoiRadius` stores the radius and the hysteresis area before it looks at them. A sum over 512 is replaced and the function returns,
without a word to the triggers; a radius that is not positive takes the triggers down and leaves them their ranges; and a trigger of the
hysteresis area that is there is changed but not put up again. Where no call does that, the triggers are what radius and area say in
every state of an entity in a space (`radius_agrees`).

An entity comes into a space with its node first, and its node goes last, as `Space` does it.
-/

namespace GameServer.Witnesses

open Lib
open Aoi (EntityRef Kind)
open Aoi.Views (changeRef)
open Coordinates (Coordinate)
open Coordinates.Space (hundredth)

/-- What is called for one entity; the events are those of the triggers that are put up or changed meanwhile. -/
inductive Call where
  | attach (radius hyst : Coordinate) (aoi hysteresis : List Event)
  | setAoiRadius (radius hyst : Coordinate) (aoi hysteresis : List Event)
  | enterSpace (aoi hysteresis : List Event)
  | leaveSpace
  deriving DecidableEq, Repr

/-- A call for the entity `e`, which is in one space at most. -/
def call (id : Nat → Nat) (e : Nat) (s : Witness) : Call → Option Witness
  | .attach radius hyst aoi hysteresis => step id s (.attach e radius hyst aoi hysteresis)
  | .setAoiRadius radius hyst aoi hysteresis => step id s (.setAoiRadius radius hyst aoi hysteresis)
  | .enterSpace aoi hysteresis =>
    if s.inSystem e then none else (step id s (.node e true)).bind fun s => step id s (.onEnterSpace aoi hysteresis)
  | .leaveSpace => if s.inSystem e then (step id s .onLeaveSpace).bind fun s => step id s (.node e false) else none

/-- The triggers are what the radius and the area say. -/
structure Agrees (s : Witness) : Prop where
  installed : (s.trigger .aoi).any (·.installed) = (Coordinate.num 0).lt s.aoiRadius
  hysteresisInstalled : ∀ t, s.trigger .hysteresis = some t → t.installed = (Coordinate.num 0).lt s.aoiRadius
  range : ∀ t, s.trigger .aoi = some t → t.range.eq s.aoiRadius = true
  hysteresisRange : ∀ t, s.trigger .hysteresis = some t → t.range.eq (s.aoiRadius.add s.aoiHysteresisArea) = true

/-- A radius and an area that reach the triggers: they are not too large, a trigger that is there gets a positive radius, and the trigger of
the hysteresis area, if it is there, a sum that is not negative. -/
structure Fitting (s : Witness) (radius hyst : Coordinate) : Prop where
  small : (Coordinate.num 512).lt (radius.add hyst) = false
  positive : (Coordinate.num 0).lt radius = true ∨ s.trigger .aoi = none
  sum : hundredth.lt hyst = true ∨ s.trigger .hysteresis = none ∨ (Coordinate.num 0).le (hyst.add radius) = true

def Fits (s : Witness) : Call → Prop
  | .attach radius hyst _ _ => Fitting s radius hyst
  | .setAoiRadius radius hyst _ _ => Fitting s radius hyst
  | .enterSpace _ _ => True
  | .leaveSpace => True

instance (s : Witness) (radius hyst : Coordinate) : Decidable (Fitting s radius hyst) :=
  decidable_of_iff ((Coordinate.num 512).lt (radius.add hyst) = false ∧
      ((Coordinate.num 0).lt radius = true ∨ s.trigger .aoi = none) ∧
      (hundredth.lt hyst = true ∨ s.trigger .hysteresis = none ∨ (Coordinate.num 0).le (hyst.add radius) = true))
    ⟨fun ⟨small, positive, sum⟩ => ⟨small, positive, sum⟩, fun ⟨small, positive, sum⟩ => ⟨small, positive, sum⟩⟩

instance (s : Witness) : (a : Call) → Decidable (Fits s a)
  | .attach radius hyst _ _ => inferInstanceAs (Decidable (Fitting s radius hyst))
  | .setAoiRadius radius hyst _ _ => inferInstanceAs (Decidable (Fitting s radius hyst))
  | .enterSpace _ _ => inferInstanceAs (Decidable True)
  | .leaveSpace => inferInstanceAs (Decidable True)

/-- All but the references and what was written. -/
def Witness.core (s : Witness) : Witness := { s with aoiEntities := [], witnesses := fun _ => [] }

section Frames

variable {id : Nat → Nat} {s u : Witness} {kind : Kind} {range : Coordinate} {events : List Event}

theorem Witness.core_eq (same : u.core = s.core) : u.pEntity = s.pEntity ∧ u.aoiRadius = s.aoiRadius ∧
    u.aoiHysteresisArea = s.aoiHysteresisArea ∧ u.trigger = s.trigger ∧ u.inSystem = s.inSystem := by
  obtain ⟨pEntity, aoiRadius, area, trigger, -, -, inSystem⟩ := Witness.mk.inj same
  exact ⟨pEntity, aoiRadius, area, trigger, inSystem⟩

theorem core_setRefs (refs : List EntityRef) : (s.setRefs refs).core = s.core := rfl

theorem core_addWitnessed {e : Nat} (next : s.addWitnessed id e = some u) : u.core = s.core := by
  obtain ⟨o, -, same⟩ := Option.bind_eq_some_iff.1 next
  obtain rfl := Option.some.inj same
  rfl

theorem core_delWitnessed {e : Nat} (next : s.delWitnessed id e = some u) : u.core = s.core := by
  obtain ⟨o, -, same⟩ := Option.bind_eq_some_iff.1 next
  obtain rfl := Option.some.inj same
  rfl

theorem core_unwitness {ref : EntityRef} (next : s.unwitness id ref = some u) : u.core = s.core := by
  unfold Witness.unwitness at next
  split at next
  · exact core_delWitnessed next
  · obtain rfl := Option.some.inj next
    rfl

/-- What enters or leaves an area changes references only. -/
theorem core_deliver {event : Event} (next : s.deliver id kind event = some u) : u.core = s.core := by
  unfold Witness.deliver at next
  split at next
  · unfold Witness.onEnterAOI at next
    split at next
    · obtain rfl := Option.some.inj next
      rfl
    · obtain ⟨o, -, next⟩ := Option.bind_eq_some_iff.1 next
      split at next
      · split at next
        · exact (core_addWitnessed next).trans (core_setRefs _)
        · obtain rfl := Option.some.inj next
          rfl
      · exact (core_addWitnessed next).trans (core_setRefs _)
  · unfold Witness.onLeaveAOI at next
    split at next
    · obtain rfl := Option.some.inj next
      rfl
    · obtain ⟨o, -, next⟩ := Option.bind_eq_some_iff.1 next
      split at next
      · obtain ⟨v, gone, same⟩ := Option.bind_eq_some_iff.1 next
        obtain rfl := Option.some.inj same
        exact (core_setRefs _).trans (core_unwitness gone)
      · obtain rfl := Option.some.inj next
        rfl

theorem core_foldlM {A : Type} {f : Witness → A → Option Witness} (keeps : ∀ s a u, f s a = some u → u.core = s.core) {as : List A}
    (next : as.foldlM f s = some u) : u.core = s.core :=
  foldlM_keeps (fun t => t.core = s.core) (fun t a v same next => (keeps t a v next).trans same) rfl next

theorem core_install (next : s.install id kind range events = some u) : u.core = (s.setTrigger kind (some ⟨range, true⟩)).core :=
  core_foldlM (fun _ _ _ => core_deliver) next

theorem core_leaveAll (next : s.leaveAll id = some u) : u.core = s.core := by
  obtain ⟨v, gone, same⟩ := Option.bind_eq_some_iff.1 next
  obtain rfl := Option.some.inj same
  exact (core_setRefs _).trans (core_foldlM (fun _ _ _ => core_unwitness) gone)

theorem core_setTrigger (same : u.core = s.core) (t : Option Trigger) : (u.setTrigger kind t).core = (s.setTrigger kind t).core := by
  obtain ⟨pEntity, aoiRadius, area, trigger, inSystem⟩ := Witness.core_eq same
  unfold Witness.core Witness.setTrigger
  rw [pEntity, aoiRadius, area, trigger, inSystem]

theorem core_updateTrigger {t : Trigger} (next : s.updateTrigger id kind t range events = some u) :
    u.core = (s.setTrigger kind (some ⟨range.fabs, t.installed⟩)).core := by
  unfold Witness.updateTrigger at next
  split at next
  · next up =>
    rw [up]
    exact core_install next
  · next down =>
    obtain rfl := Option.some.inj next
    rw [Bool.eq_false_of_not_eq_true down]

/-- A trigger is put up when the entity is in a space. -/
theorem core_place {o : Nat} (owner : s.pEntity = some o) (next : s.place id kind range events = some u)
    (up : ∀ t, s.trigger kind = some t → t.installed = s.inSystem o) :
    u.core = (s.setTrigger kind (some ⟨range.fabs, s.inSystem o⟩)).core := by
  unfold Witness.place at next
  rw [owner, Option.any_some] at next
  cases here : s.trigger kind with
  | none =>
    rw [here, Option.getD_none] at next
    cases inside : s.inSystem o with
    | false =>
      rw [inside, if_neg (by simp)] at next
      exact core_updateTrigger next
    | true =>
      rw [inside, if_pos (by simp)] at next
      exact core_install next
  | some t =>
    have same := up t here
    rw [here, Option.getD_some] at next
    dsimp only at next
    rw [same, if_neg (by simp)] at next
    rw [← same]
    exact core_updateTrigger next

theorem core_uninstall (next : s.uninstallAOITrigger id = some u) :
    u.core = ({ s with trigger := fun kind => (s.trigger kind).map fun t => { t with installed := false } } : Witness).core :=
  core_leaveAll next

theorem core_onLeaveSpace (next : s.onLeaveSpace id = some u) :
    u.core = ({ s with trigger := fun kind => (s.trigger kind).map fun t => { t with installed := false } } : Witness).core := by
  obtain ⟨v, down, next⟩ := Option.bind_eq_some_iff.1 next
  obtain ⟨w, gone, same⟩ := Option.bind_eq_some_iff.1 next
  obtain rfl := Option.some.inj same
  exact (core_setRefs _).trans ((core_foldlM (fun _ _ _ => core_unwitness) gone).trans (core_uninstall down))

theorem core_reinstall (next : s.reinstall id kind events = some u) :
    u.core = (s.setTrigger kind ((s.trigger kind).map fun t => ⟨t.range, true⟩)).core := by
  unfold Witness.reinstall at next
  split at next
  · next none' =>
    obtain rfl := Option.some.inj next
    have same : s.setTrigger kind none = s := by
      unfold Witness.setTrigger
      rw [← none', Function.update_eq_self]
    rw [none', Option.map_none, same]
  · next t here =>
    obtain ⟨-, up⟩ := Option.ite_none_right_eq_some.1 next
    rw [here]
    exact core_install up

end Frames

section Synced

variable {id : Nat → Nat} {e : Nat} {s u : Witness} {radius hyst : Coordinate} {aoi hysteresis : List Event}

/-- What holds of the triggers whatever their ranges are: those of an entity in a space are installed, and one of the hysteresis area comes
with one of the area. -/
structure Placed (e : Nat) (s : Witness) : Prop where
  owner : s.pEntity = none ∨ s.pEntity = some e
  bare : s.pEntity = none → ∀ kind, s.trigger kind = none
  up : ∀ kind t, s.trigger kind = some t → t.installed = s.inSystem e
  first : s.trigger .aoi = none → s.trigger .hysteresis = none

/-- The ranges are those that the radius and the area ask for. -/
structure Synced (e : Nat) (s : Witness) : Prop extends Placed e s where
  made : s.pEntity = some e → (Coordinate.num 0).lt s.aoiRadius = true → s.trigger .aoi ≠ none
  range : ∀ t, s.trigger .aoi = some t → t.range = s.aoiRadius ∧ (Coordinate.num 0).lt s.aoiRadius = true
  hysteresisRange : ∀ t, s.trigger .hysteresis = some t →
    t.range = s.aoiHysteresisArea.add s.aoiRadius ∧ (Coordinate.num 0).le t.range = true

theorem Synced.fresh (e : Nat) : Synced e .fresh where
  owner := .inl rfl
  bare _ _ := rfl
  up := nofun
  first _ := rfl
  made := nofun
  range := nofun
  hysteresisRange := nofun

theorem Synced.congr (synced : Synced e s) (same : u.core = s.core) : Synced e u := by
  obtain ⟨pEntity, aoiRadius, area, trigger, inSystem⟩ := Witness.core_eq same
  obtain ⟨⟨owner, bare, up, first⟩, made, range, hysteresisRange⟩ := synced
  rw [← pEntity] at owner bare made
  rw [← trigger] at bare up first made range hysteresisRange
  rw [← inSystem] at up
  rw [← aoiRadius] at made range hysteresisRange
  rw [← area] at hysteresisRange
  exact ⟨⟨owner, bare, up, first⟩, made, range, hysteresisRange⟩

/-- Without a trigger and without a radius for one. -/
theorem synced_of_none (owner : s.pEntity = none ∨ s.pEntity = some e) (none' : ∀ kind, s.trigger kind = none)
    (small : s.pEntity = some e → (Coordinate.num 0).lt s.aoiRadius = false) : Synced e s := by
  refine ⟨⟨owner, fun _ => none', ?_, fun _ => none' _⟩, ?_, ?_, ?_⟩
  · intro kind t here
    rw [none' kind] at here
    cases here
  · intro is positive
    rw [small is] at positive
    cases positive
  · intro t here
    rw [none' .aoi] at here
    cases here
  · intro t here
    rw [none' .hysteresis] at here
    cases here

/-- The triggers go up or down with the entity. -/
def Witness.reset (s : Witness) (e : Nat) (b : Bool) : Witness := { s with
  trigger := fun kind => (s.trigger kind).map fun t => ⟨t.range, b⟩
  inSystem := Function.update s.inSystem e b }

theorem Synced.reset (synced : Synced e s) (b : Bool) : Synced e (s.reset e b) := by
  refine ⟨⟨synced.owner, ?_, ?_, ?_⟩, ?_, ?_, ?_⟩
  · intro none' kind
    exact Option.map_eq_none_iff.2 (synced.bare none' kind)
  · intro kind t here
    obtain ⟨t', -, rfl⟩ := Option.map_eq_some_iff.1 here
    exact (Function.update_self e b s.inSystem).symm
  · intro none'
    exact Option.map_eq_none_iff.2 (synced.first (Option.map_eq_none_iff.1 none'))
  · intro owner positive none'
    exact synced.made owner positive (Option.map_eq_none_iff.1 none')
  · intro t here
    obtain ⟨t', there, rfl⟩ := Option.map_eq_some_iff.1 here
    exact synced.range t' there
  · intro t here
    obtain ⟨t', there, rfl⟩ := Option.map_eq_some_iff.1 here
    exact synced.hysteresisRange t' there

theorem fabs_of_le {r : Coordinate} (le : (Coordinate.num 0).le r = true) : r.fabs = r := by
  cases r with
  | nan => rfl
  | num v =>
    have nonneg : 0 ≤ v := of_decide_eq_true le
    rw [Coordinate.fabs, abs_of_nonneg nonneg]

theorem zero_le_of_lt {r : Coordinate} (lt : (Coordinate.num 0).lt r = true) : (Coordinate.num 0).le r = true := by
  cases r with
  | nan => cases lt
  | num v =>
    have pos : 0 < v := of_decide_eq_true lt
    exact decide_eq_true (le_of_lt pos)

theorem zero_le_sum {r h : Coordinate} (positive : (Coordinate.num 0).lt r = true) (wide : hundredth.lt h = true) :
    (Coordinate.num 0).le (h.add r) = true := by
  cases r with
  | nan => cases positive
  | num v =>
    cases h with
    | nan => cases wide
    | num w =>
      have pos : 0 < v := of_decide_eq_true positive
      have pos' : 10737418 / 2 ^ 30 < w := of_decide_eq_true wide
      refine decide_eq_true (add_nonneg ?_ (le_of_lt pos))
      exact le_trans (by norm_num) (le_of_lt pos')

theorem trigger_setTrigger (s : Witness) (kind : Kind) (t : Option Trigger) : (s.setTrigger kind t).trigger kind = t := by
  unfold Witness.setTrigger
  dsimp only
  rw [Function.update_self]

theorem trigger_setTrigger_of_ne {kind kind' : Kind} {t : Option Trigger} (ne : kind' ≠ kind) :
    (s.setTrigger kind t).trigger kind' = s.trigger kind' := by
  unfold Witness.setTrigger
  dsimp only
  rw [Function.update_of_ne ne]

/-- The two triggers that `setAoiRadius` leaves behind. -/
theorem Placed.synced (placed : Placed e s) (owner : s.pEntity = some e) (positive : (Coordinate.num 0).lt s.aoiRadius = true)
    (outer : Option Trigger) (outer_eq : ∀ t, outer = some t → t = ⟨s.aoiHysteresisArea.add s.aoiRadius, s.inSystem e⟩ ∧
      (Coordinate.num 0).le (s.aoiHysteresisArea.add s.aoiRadius) = true) :
    Synced e ((s.setTrigger .aoi (some ⟨s.aoiRadius, s.inSystem e⟩)).setTrigger .hysteresis outer) := by
  have inner : ((s.setTrigger .aoi (some ⟨s.aoiRadius, s.inSystem e⟩)).setTrigger .hysteresis outer).trigger .aoi =
      some ⟨s.aoiRadius, s.inSystem e⟩ := by
    rw [trigger_setTrigger_of_ne (by decide), trigger_setTrigger]
  have outer' := trigger_setTrigger (s.setTrigger .aoi (some ⟨s.aoiRadius, s.inSystem e⟩)) .hysteresis outer
  refine ⟨⟨placed.owner, ?_, ?_, ?_⟩, ?_, ?_, ?_⟩
  · intro none'
    rw [show s.pEntity = none from none'] at owner
    cases owner
  · intro kind t here
    cases kind with
    | aoi =>
      rw [inner] at here
      obtain rfl := Option.some.inj here
      rfl
    | hysteresis =>
      rw [outer'] at here
      rw [(outer_eq t here).1]
      rfl
  · intro none'
    rw [inner] at none'
    cases none'
  · intro _ _ none'
    rw [inner] at none'
    cases none'
  · intro t here
    rw [inner] at here
    obtain rfl := Option.some.inj here
    exact ⟨rfl, positive⟩
  · intro t here
    rw [outer'] at here
    obtain ⟨rfl, le⟩ := outer_eq t here
    exact ⟨rfl, le⟩

/-- The end of `setAoiRadius`, when the radius and the area are stored. -/
def Witness.setTriggers (id : Nat → Nat) (s : Witness) (radius hyst : Coordinate) (aoi hysteresis : List Event) : Option Witness :=
  if (Coordinate.num 0).lt radius ∧ s.pEntity.isSome then do
    let s ← s.place id .aoi radius aoi
    if hundredth.lt hyst then s.place id .hysteresis (hyst.add radius) hysteresis
    else match s.trigger .hysteresis with
      | some t => s.updateTrigger id .hysteresis t (hyst.add radius) hysteresis
      | none => return s
  else s.uninstallAOITrigger id

theorem setAoiRadius_eq (small : (Coordinate.num 512).lt (radius.add hyst) = false) : s.setAoiRadius id radius hyst aoi hysteresis =
    ({ s with aoiRadius := radius, aoiHysteresisArea := hyst } : Witness).setTriggers id radius hyst aoi hysteresis := by
  rw [Witness.setAoiRadius, small]
  rfl

theorem Placed.setTriggers (placed : Placed e s) (radius_eq : s.aoiRadius = radius) (hyst_eq : s.aoiHysteresisArea = hyst)
    (fits : Fitting s radius hyst) (next : s.setTriggers id radius hyst aoi hysteresis = some u) : Synced e u := by
  subst radius_eq hyst_eq
  unfold Witness.setTriggers at next
  split at next
  · next both =>
    obtain ⟨positive, attached⟩ := both
    have owner : s.pEntity = some e := by
      rcases placed.owner with none' | owner
      · rw [none'] at attached
        cases attached
      · exact owner
    obtain ⟨v, inner, next⟩ := Option.bind_eq_some_iff.1 next
    have inner' := core_place owner inner (placed.up .aoi)
    rw [fabs_of_le (zero_le_of_lt positive)] at inner'
    obtain ⟨owner', -, -, triggers, inSystem⟩ := Witness.core_eq inner'
    have outer_eq : v.trigger .hysteresis = s.trigger .hysteresis := by
      rw [triggers, trigger_setTrigger_of_ne (by decide)]
    have up : ∀ t, v.trigger .hysteresis = some t → t.installed = s.inSystem e := by
      rw [outer_eq]
      exact placed.up .hysteresis
    split at next
    · next wide =>
      have sum := zero_le_sum positive wide
      have outer := core_place (owner'.trans owner) next (by rw [inSystem]; exact up)
      rw [fabs_of_le sum, inSystem] at outer
      refine Synced.congr (placed.synced owner positive _ ?_) (outer.trans (core_setTrigger inner' _))
      rintro t ⟨⟩
      exact ⟨rfl, sum⟩
    · next narrow =>
      split at next
      · next t here =>
        have sum : (Coordinate.num 0).le (s.aoiHysteresisArea.add s.aoiRadius) = true := by
          rcases fits.sum with wide | none' | sum
          · exact absurd wide narrow
          · rw [outer_eq, none'] at here
            cases here
          · exact sum
        have outer := core_updateTrigger next
        rw [fabs_of_le sum, up t here] at outer
        refine Synced.congr (placed.synced owner positive _ ?_) (outer.trans (core_setTrigger inner' _))
        rintro t' ⟨⟩
        exact ⟨rfl, sum⟩
      · next none' =>
        obtain rfl := Option.some.inj next
        have same : v.setTrigger .hysteresis none = v := by
          unfold Witness.setTrigger
          rw [← none', Function.update_eq_self]
        have outer := @core_setTrigger _ _ .hysteresis inner' none
        rw [same] at outer
        exact Synced.congr (placed.synced owner positive none nofun) outer
  · next small =>
    have none' : ∀ kind, s.trigger kind = none := by
      rcases Option.eq_none_or_eq_some s.pEntity with owner | ⟨o, owner⟩
      · exact placed.bare owner
      · have first : s.trigger .aoi = none := by
          rcases fits.positive with positive | none'
          · exact absurd ⟨positive, by rw [owner]; rfl⟩ small
          · exact none'
        intro kind
        cases kind with
        | aoi => exact first
        | hysteresis => exact placed.first first
    have idle : s.pEntity = some e → (Coordinate.num 0).lt s.aoiRadius = false := by
      intro owner
      exact Bool.eq_false_of_not_eq_true fun positive => small ⟨positive, by rw [owner]; rfl⟩
    have down : Synced e { s with trigger := fun kind => (s.trigger kind).map fun t => { t with installed := false } } := by
      refine synced_of_none placed.owner (fun kind => ?_) idle
      exact Option.map_eq_none_iff.2 (none' kind)
    exact down.congr (core_uninstall next)

/-- **Setting a radius that fits** brings the triggers in line with it. -/
theorem Placed.setAoiRadius (placed : Placed e s) (fits : Fitting s radius hyst)
    (next : s.setAoiRadius id radius hyst aoi hysteresis = some u) : Synced e u := by
  rw [setAoiRadius_eq fits.small] at next
  have placed' : Placed e { s with aoiRadius := radius, aoiHysteresisArea := hyst } :=
    ⟨placed.owner, placed.bare, placed.up, placed.first⟩
  exact placed'.setTriggers rfl rfl ⟨fits.small, fits.positive, fits.sum⟩ next

theorem not_le_of_lt {r : Coordinate} (lt : (Coordinate.num 0).lt r = true) : r.le (.num 0) = false := by
  cases r with
  | nan => cases lt
  | num v =>
    have pos : 0 < v := of_decide_eq_true lt
    exact decide_eq_false (not_le_of_gt pos)

theorem Synced.enterSpace (synced : Synced e s) (next : call id e s (.enterSpace aoi hysteresis) = some u) : Synced e u := by
  obtain ⟨-, next⟩ := Option.ite_none_left_eq_some.1 next
  obtain ⟨s', node, next⟩ := Option.bind_eq_some_iff.1 next
  obtain rfl := Option.some.inj node
  refine (synced.reset true).congr ?_
  change Witness.installAOITrigger id _ aoi hysteresis = some u at next
  unfold Witness.installAOITrigger at next
  split at next
  · next idle =>
    obtain rfl := Option.some.inj next
    have first : s.trigger .aoi = none := by
      rcases idle with none' | small | none'
      · exact Option.isNone_iff_eq_none.1 none'
      · by_contra there
        obtain ⟨t, here⟩ := Option.ne_none_iff_exists'.1 there
        have positive := (synced.range t here).2
        rw [not_le_of_lt positive] at small
        cases small
      · exact synced.bare (Option.isNone_iff_eq_none.1 none') .aoi
    have triggers : s.trigger = fun kind => (s.trigger kind).map fun t => ⟨t.range, true⟩ := by
      funext kind
      cases kind with
      | aoi => rw [first, Option.map_none]
      | hysteresis => rw [synced.first first, Option.map_none]
    unfold Witness.core Witness.reset
    rw [← triggers]
  · obtain ⟨v, outer, next⟩ := Option.bind_eq_some_iff.1 next
    have outer' := core_reinstall outer
    have inner' := core_reinstall next
    obtain ⟨pEntity, aoiRadius, area, trigger, inSystem⟩ := Witness.core_eq outer'
    have first : v.trigger .aoi = s.trigger .aoi := by
      rw [trigger, trigger_setTrigger_of_ne (by decide)]
    rw [inner', core_setTrigger outer', first]
    have triggers : Function.update (Function.update s.trigger .hysteresis ((s.trigger .hysteresis).map fun t => ⟨t.range, true⟩))
        .aoi ((s.trigger .aoi).map fun t => ⟨t.range, true⟩) = fun kind => (s.trigger kind).map fun t => ⟨t.range, true⟩ := by
      funext kind
      cases kind with
      | aoi => rw [Function.update_self]
      | hysteresis => rw [Function.update_of_ne (by decide), Function.update_self]
    unfold Witness.core Witness.reset Witness.setTrigger
    rw [triggers]

theorem Synced.leaveSpace (synced : Synced e s) (next : call id e s .leaveSpace = some u) : Synced e u := by
  obtain ⟨-, next⟩ := Option.ite_none_right_eq_some.1 next
  obtain ⟨v, left, node⟩ := Option.bind_eq_some_iff.1 next
  obtain rfl := Option.some.inj node
  refine (synced.reset false).congr ?_
  obtain ⟨pEntity, aoiRadius, area, trigger, inSystem⟩ := Witness.core_eq (core_onLeaveSpace left)
  unfold Witness.core Witness.reset
  rw [pEntity, aoiRadius, area, trigger, inSystem]

theorem Synced.attach (synced : Synced e s) (fits : Fitting s radius hyst)
    (next : s.attach id e radius hyst aoi hysteresis = some u) : Synced e u := by
  have placed : Placed e { s with pEntity := some e } := ⟨.inr rfl, nofun, synced.up, synced.first⟩
  exact placed.setAoiRadius ⟨fits.small, fits.positive, fits.sum⟩ next

/-- What a call keeps. -/
theorem Synced.call {a : Call} (synced : Synced e s) (fits : Fits s a) (next : call id e s a = some u) : Synced e u := by
  cases a with
  | attach radius hyst aoi hysteresis => exact synced.attach fits next
  | setAoiRadius radius hyst aoi hysteresis => exact synced.toPlaced.setAoiRadius fits next
  | enterSpace aoi hysteresis => exact synced.enterSpace next
  | leaveSpace => exact synced.leaveSpace next

theorem eq_of_lt {r : Coordinate} (lt : (Coordinate.num 0).lt r = true) : r.eq r = true := by
  cases r with
  | nan => cases lt
  | num v => exact decide_eq_true rfl

theorem eq_add_comm {r h : Coordinate} (le : (Coordinate.num 0).le (h.add r) = true) : (h.add r).eq (r.add h) = true := by
  cases r with
  | nan => cases h <;> cases le
  | num v =>
    cases h with
    | nan => cases le
    | num w => exact decide_eq_true (add_comm w v)

theorem Synced.agrees (synced : Synced e s) (owner : s.pEntity = some e) (inSpace : s.inSystem e = true) : Agrees s := by
  have positive : ∀ t, s.trigger .hysteresis = some t → (Coordinate.num 0).lt s.aoiRadius = true := by
    intro t here
    cases first : s.trigger .aoi with
    | none =>
      rw [synced.first first] at here
      cases here
    | some t' => exact (synced.range t' first).2
  refine ⟨?_, ?_, ?_, ?_⟩
  · cases here : s.trigger .aoi with
    | none =>
      have small : (Coordinate.num 0).lt s.aoiRadius ≠ true := fun positive => synced.made owner positive here
      rw [Bool.eq_false_of_not_eq_true small]
      rfl
    | some t =>
      rw [Option.any_some, synced.up .aoi t here, inSpace, (synced.range t here).2]
  · intro t here
    rw [synced.up .hysteresis t here, inSpace, positive t here]
  · intro t here
    obtain ⟨range, lt⟩ := synced.range t here
    rw [range]
    exact eq_of_lt lt
  · intro t here
    obtain ⟨range, le⟩ := synced.hysteresisRange t here
    rw [range] at le ⊢
    exact eq_add_comm le

end Synced

/-- **Radius and triggers agree** after every sequence of calls that fit, when the entity is in a space at the end. -/
theorem radius_agrees {id : Nat → Nat} {e : Nat} {as : List Call} {s : Witness} (run : Runs (call id e) Fits .fresh as s)
    (owner : s.pEntity = some e) (inSpace : s.inSystem e = true) : Agrees s := by
  have synced := run.invariant (Synced e) (Synced.fresh e) fun _ _ _ synced fits next => synced.call fits next
  exact synced.agrees owner inSpace

/-- The radius grows in a space and out of it. -/
theorem radius_agrees_twice : ∃ s, Runs (call id 1) Fits .fresh [.attach (.num 5) (.num 1) [] [], .enterSpace [⟨true, 2⟩] [],
      .setAoiRadius (.num 20) (.num 0) [⟨true, 3⟩] [], .leaveSpace, .setAoiRadius (.num 30) (.num 2) [] [], .enterSpace [] []] s ∧
    s.aoiRadius = .num 30 ∧ Agrees s := by
  obtain ⟨s, run, owner, inSpace, radius⟩ : ∃ s, Runs (call id 1) Fits .fresh [.attach (.num 5) (.num 1) [] [], .enterSpace [⟨true, 2⟩] [],
      .setAoiRadius (.num 20) (.num 0) [⟨true, 3⟩] [], .leaveSpace, .setAoiRadius (.num 30) (.num 2) [] [], .enterSpace [] []] s ∧
      s.pEntity = some 1 ∧ s.inSystem 1 = true ∧ s.aoiRadius = .num 30 := by
    apply Runs.exists_of_decide
    decide +kernel
  exact ⟨s, run, radius, radius_agrees run owner inSpace⟩

/-- A radius that is too large is replaced, and the trigger keeps the range it had. -/
theorem radius_too_large : ∃ s, Runs (call id 1) (fun _ _ => True) .fresh [.attach (.num 5) (.num 1) [] [], .enterSpace [] [],
      .setAoiRadius (.num 600) (.num 5) [] []] s ∧
    s.pEntity = some 1 ∧ s.inSystem 1 = true ∧ s.aoiRadius = .num 507 ∧ s.trigger .aoi = some ⟨.num 5, true⟩ ∧ ¬ Agrees s := by
  obtain ⟨s, run, owner, inSpace, radius, trigger⟩ : ∃ s, Runs (call id 1) (fun _ _ => True) .fresh
      [.attach (.num 5) (.num 1) [] [], .enterSpace [] [], .setAoiRadius (.num 600) (.num 5) [] []] s ∧
      s.pEntity = some 1 ∧ s.inSystem 1 = true ∧ s.aoiRadius = .num 507 ∧ s.trigger .aoi = some ⟨.num 5, true⟩ := by
    apply Runs.exists_of_decide
    decide +kernel
  refine ⟨s, run, owner, inSpace, radius, trigger, ?_⟩
  rintro ⟨-, -, range, -⟩
  have same := range _ trigger
  rw [radius] at same
  exact absurd same (by decide +kernel)

end GameServer.Witnesses

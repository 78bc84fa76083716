import Mathlib.Data.List.Nodup
import GameServer.Aoi.Views
import GameServer.Witnesses.Witness

/-!
# Taking a witness down

A reference of an entity that left stays until the witness leaves the space, and has no entity. `onLeaveSpace` asks for it, `clear`
does not, so that `clear` fails as soon as one reference is marked as leaving (`teardown_iff`). What a witness wrote into the lists
`witnesses_` is always that of its references with an entity, and `clear` takes it all back when it goes through.
-/

namespace GameServer.Witnesses

open Lib
open Aoi (EntityRef Kind mem_changeRef ids_changeRef)
open Aoi.Views (changeRef)
open Coordinates (Coordinate)

variable {id : Nat → Nat} {s t : Witness} {e o : Nat} {kind : Kind} {ref : EntityRef} {refs : List EntityRef}

/-- The references of a witness, and what it has written. -/
structure Inv (id : Nat → Nat) (s : Witness) : Prop where
  once : (s.aoiEntities.map EntityRef.id).Nodup
  named : ∀ ref ∈ s.aoiEntities, ∀ e, ref.pEntity = some e → ref.id = id e
  pending : ∀ ref ∈ s.aoiEntities, ref.leavePending = ref.pEntity.isNone
  owned : s.pEntity = none → s.aoiEntities = []
  written : ∀ e, ∀ o ∈ s.witnesses e, s.pEntity.map id = some o ∧ ∃ ref ∈ s.aoiEntities, ref.pEntity = some e

theorem inv_fresh : Inv id .fresh := ⟨.nil, nofun, nofun, fun _ => rfl, nofun⟩

/-- The triggers and the radius do not matter. -/
theorem Inv.congr (inv : Inv id s) (pEntity : t.pEntity = s.pEntity) (aoiEntities : t.aoiEntities = s.aoiEntities)
    (witnesses : t.witnesses = s.witnesses) : Inv id t := by
  constructor
  · rw [aoiEntities]
    exact inv.once
  · rw [aoiEntities]
    exact inv.named
  · rw [aoiEntities]
    exact inv.pending
  · rw [pEntity, aoiEntities]
    exact inv.owned
  · rw [pEntity, aoiEntities, witnesses]
    exact inv.written

theorem Inv.setTrigger (inv : Inv id s) (t : Option Trigger) : Inv id (s.setTrigger kind t) := inv.congr rfl rfl rfl

/-- Without references nothing is written. -/
theorem Inv.unwritten (inv : Inv id s) (none' : s.aoiEntities = []) (e : Nat) : s.witnesses e = [] := by
  rw [List.eq_nil_iff_forall_not_mem]
  intro o mem
  obtain ⟨-, ref, there, -⟩ := inv.written e o mem
  rw [none'] at there
  cases there

/-- A witness that wrote nothing, and has no reference with an entity. -/
theorem inv_of_unwritten (once : (s.aoiEntities.map EntityRef.id).Nodup)
    (left : ∀ ref ∈ s.aoiEntities, ref.pEntity = none ∧ ref.leavePending = true)
    (owned : s.pEntity = none → s.aoiEntities = []) (unwritten : ∀ e, s.witnesses e = []) : Inv id s := by
  refine ⟨once, ?_, ?_, owned, ?_⟩
  · intro ref mem e is
    rw [(left ref mem).1] at is
    cases is
  · intro ref mem
    rw [(left ref mem).1, (left ref mem).2]
    rfl
  · intro e o mem
    rw [unwritten e] at mem
    cases mem

theorem delWitnessed_eq (owner : s.pEntity = some o) :
    s.delWitnessed id e = some { s with witnesses := Function.update s.witnesses e ((s.witnesses e).filter (· ≠ id o)) } := by
  rw [Witness.delWitnessed, owner]
  rfl

theorem addWitnessed_setRefs (owner : s.pEntity = some o) (refs : List EntityRef) :
    (s.setRefs refs).addWitnessed id e =
      some { s with aoiEntities := refs, witnesses := Function.update s.witnesses e (s.witnesses e ++ [id o]) } := by
  rw [Witness.addWitnessed, Witness.setRefs]
  dsimp only
  rw [owner]
  rfl

/-- Every entity with a reference is told that the owner does not see it any more. -/
theorem foldlM_unwitness (owner : s.pEntity = some o) (refs : List EntityRef) :
    ∃ witnesses, refs.foldlM (Witness.unwitness id) s = some { s with witnesses := witnesses } ∧
      (∀ e, ∀ p ∈ witnesses e, p ∈ s.witnesses e) ∧ ∀ ref ∈ refs, ∀ e, ref.pEntity = some e → id o ∉ witnesses e := by
  induction refs generalizing s with
  | nil => exact ⟨s.witnesses, rfl, fun _ _ mem => mem, nofun⟩
  | cons ref refs ih =>
    cases is : ref.pEntity with
    | none =>
      obtain ⟨witnesses, run, fewer, gone⟩ := ih owner
      refine ⟨witnesses, ?_, fewer, ?_⟩
      · rw [List.foldlM_cons, Witness.unwitness, is]
        exact run
      · intro ref' mem e is'
        rcases List.mem_cons.1 mem with rfl | mem
        · rw [is] at is'
          cases is'
        · exact gone ref' mem e is'
    | some e =>
      have owner' : { s with witnesses := Function.update s.witnesses e ((s.witnesses e).filter (· ≠ id o)) }.pEntity = some o :=
        owner
      obtain ⟨witnesses, run, fewer, gone⟩ := ih owner'
      have kept : ∀ d, ∀ p ∈ witnesses d, p ∈ s.witnesses d ∧ (d = e → p ≠ id o) := by
        intro d p mem
        have mem := fewer d p mem
        dsimp only at mem
        by_cases same : d = e
        · subst same
          rw [Function.update_self, List.mem_filter] at mem
          exact ⟨mem.1, fun _ => of_decide_eq_true mem.2⟩
        · rw [Function.update_of_ne same] at mem
          exact ⟨mem, fun here => absurd here same⟩
      refine ⟨witnesses, ?_, fun d p mem => (kept d p mem).1, ?_⟩
      · rw [List.foldlM_cons, Witness.unwitness, is]
        dsimp only
        rw [delWitnessed_eq owner]
        exact run
      · intro ref' mem d is'
        rcases List.mem_cons.1 mem with rfl | mem
        · obtain rfl : e = d := Option.some.inj (is.symm.trans is')
          exact fun here => (kept e _ here).2 rfl rfl
        · exact gone ref' mem d is'

/-- All that the witness has written is taken back. -/
theorem Inv.foldlM_unwitness (inv : Inv id s) :
    s.aoiEntities.foldlM (Witness.unwitness id) s = some { s with witnesses := fun _ => [] } := by
  rcases Option.eq_none_or_eq_some s.pEntity with owner | ⟨o, owner⟩
  · have unwritten : s.witnesses = fun _ => [] := funext (inv.unwritten (inv.owned owner))
    have none' : s.aoiEntities = [] := inv.owned owner
    rw [← unwritten, none']
    cases s
    subst none'
    rfl
  · obtain ⟨witnesses, run, fewer, gone⟩ := Witnesses.foldlM_unwitness owner s.aoiEntities
    have unwritten : witnesses = fun _ => [] := by
      funext e
      rw [List.eq_nil_iff_forall_not_mem]
      intro p mem
      obtain ⟨mine, ref, there, is⟩ := inv.written e p (fewer e p mem)
      rw [owner] at mine
      obtain rfl : id o = p := Option.some.inj mine
      exact gone ref there e is mem
    rw [run, unwritten]

/-- `uninstallAOITrigger` keeps the references, without entities. -/
theorem Inv.leaveAll (inv : Inv id s) : ∃ t, s.leaveAll id = some t ∧ Inv id t := by
  refine ⟨{ s with witnesses := fun _ => [], aoiEntities := s.aoiEntities.map EntityRef.leave }, ?_, ?_⟩
  · rw [Witness.leaveAll, inv.foldlM_unwitness]
    rfl
  · apply inv_of_unwritten
    · rw [List.map_map]
      exact inv.once
    · intro ref mem
      obtain ⟨old, -, rfl⟩ := List.mem_map.1 mem
      exact ⟨rfl, rfl⟩
    · intro owner
      rw [inv.owned owner, List.map_nil]
    · exact fun _ => rfl

theorem Inv.uninstallAOITrigger (inv : Inv id s) : ∃ t, s.uninstallAOITrigger id = some t ∧ Inv id t :=
  have inv' : Inv id { s with trigger := fun kind => (s.trigger kind).map fun t => { t with installed := false } } :=
    inv.congr rfl rfl rfl
  inv'.leaveAll

theorem Inv.onLeaveSpace (inv : Inv id s) : ∃ t, s.onLeaveSpace id = some t ∧ Inv id t := by
  obtain ⟨t, run, invT⟩ := inv.uninstallAOITrigger
  refine ⟨{ t with witnesses := fun _ => [], aoiEntities := [] }, ?_, ?_⟩
  · rw [Witness.onLeaveSpace, run, Option.bind_eq_bind, Option.bind_some, invT.foldlM_unwitness]
    rfl
  · exact inv_of_unwritten .nil nofun (fun _ => rfl) fun _ => rfl

/-- The reference with an id is the only one. -/
theorem Inv.ref_inj (inv : Inv id s) {ref' : EntityRef} (mem : ref ∈ s.aoiEntities) (mem' : ref' ∈ s.aoiEntities)
    (same : ref.id = ref'.id) : ref = ref' :=
  List.inj_on_of_nodup_map inv.once mem mem' same

/-- An entity without a reference comes in. -/
theorem Inv.append (inv : Inv id s) (owner : s.pEntity = some o) (new : ∀ ref ∈ s.aoiEntities, ref.id ≠ id e) :
    Inv id { s with
      aoiEntities := s.aoiEntities ++ [⟨id e, some e, true, false, false⟩]
      witnesses := Function.update s.witnesses e (s.witnesses e ++ [id o]) } := by
  have mine : (⟨id e, some e, true, false, false⟩ : EntityRef) ∈ s.aoiEntities ++ [⟨id e, some e, true, false, false⟩] := by simp
  constructor
  · rw [List.map_append, List.nodup_append]
    refine ⟨inv.once, List.nodup_singleton _, ?_⟩
    rintro p mem q mem' rfl
    obtain ⟨ref, there, same⟩ := List.mem_map.1 mem
    exact new ref there (same.trans (List.mem_singleton.1 mem'))
  · intro ref mem d is
    rcases List.mem_append.1 mem with mem | mem
    · exact inv.named ref mem d is
    · obtain rfl := List.mem_singleton.1 mem
      exact congrArg id (Option.some.inj is)
  · intro ref mem
    rcases List.mem_append.1 mem with mem | mem
    · exact inv.pending ref mem
    · obtain rfl := List.mem_singleton.1 mem
      rfl
  · intro none'
    rw [owner] at none'
    cases none'
  · intro d p mem
    dsimp only at mem
    by_cases same : d = e
    · subst same
      rw [Function.update_self, List.mem_append, List.mem_singleton] at mem
      refine ⟨?_, _, mine, rfl⟩
      rcases mem with mem | rfl
      · exact (inv.written d p mem).1
      · rw [owner]
        rfl
    · rw [Function.update_of_ne same] at mem
      obtain ⟨isOwner, ref, there, is⟩ := inv.written d p mem
      exact ⟨isOwner, ref, List.mem_append_left _ there, is⟩

/-- An entity comes in whose reference was left. -/
theorem Inv.revive (inv : Inv id s) (owner : s.pEntity = some o) (mem : ref ∈ s.aoiEntities) (named : ref.id = id e)
    (leaving : ref.leavePending = true) :
    Inv id { s with
      aoiEntities := changeRef (id e) (revive id e) s.aoiEntities
      witnesses := Function.update s.witnesses e (s.witnesses e ++ [id o]) } := by
  have gone : ref.pEntity = none := Option.isNone_iff_eq_none.1 ((inv.pending ref mem).symm.trans leaving)
  have changed : ∀ d, d ∈ changeRef (id e) (Witnesses.revive id e) s.aoiEntities ↔
      (d ∈ s.aoiEntities ∧ d.id ≠ id e) ∨ d = Witnesses.revive id e ref := by
    intro d
    rw [mem_changeRef inv.once]
    refine or_congr_right ⟨?_, fun is => ⟨ref, mem, named, is⟩⟩
    rintro ⟨old, there, same, rfl⟩
    rw [inv.ref_inj there mem (same.trans named.symm)]
  constructor
  · dsimp only
    rw [ids_changeRef (f := Witnesses.revive id e) fun ref named => named.symm]
    exact inv.once
  · intro d memD p is
    rcases (changed d).1 memD with ⟨there, -⟩ | rfl
    · exact inv.named d there p is
    · exact congrArg id (Option.some.inj is)
  · intro d memD
    rcases (changed d).1 memD with ⟨there, -⟩ | rfl
    · exact inv.pending d there
    · rfl
  · intro none'
    rw [owner] at none'
    cases none'
  · intro d p memP
    dsimp only at memP
    by_cases same : d = e
    · subst same
      rw [Function.update_self, List.mem_append, List.mem_singleton] at memP
      refine ⟨?_, _, (changed _).2 (.inr rfl), rfl⟩
      rcases memP with memP | rfl
      · exact (inv.written d p memP).1
      · rw [owner]
        rfl
    · rw [Function.update_of_ne same] at memP
      obtain ⟨isOwner, other, there, is⟩ := inv.written d p memP
      refine ⟨isOwner, other, (changed other).2 (.inl ⟨there, fun sameId => ?_⟩), is⟩
      rw [inv.ref_inj there mem (sameId.trans named.symm), gone] at is
      cases is

/-- An entity comes in, with a reference of its own or in the place of the one that was left. -/
theorem Inv.onEnterAOI (inv : Inv id s) (run : s.onEnterAOI id kind e = some t) : Inv id t := by
  rw [Witness.onEnterAOI] at run
  split_ifs at run with outer
  · obtain rfl := Option.some.inj run
    exact inv
  · obtain ⟨o, owner, run⟩ := Option.bind_eq_some_iff.1 run
    have owner : s.pEntity = some o := owner
    cases found : s.aoiEntities.find? (fun ref => ref.id = id e) with
    | none =>
      rw [found] at run
      have new := List.find?_eq_none.1 found
      dsimp only at run
      rw [addWitnessed_setRefs owner] at run
      obtain rfl := Option.some.inj run
      exact inv.append owner (by simpa using new)
    | some ref =>
      rw [found] at run
      have mem := List.mem_of_find?_eq_some found
      have named : ref.id = id e := by simpa using List.find?_some found
      dsimp only at run
      split_ifs at run with leaving
      · rw [addWitnessed_setRefs owner] at run
        obtain rfl := Option.some.inj run
        exact inv.revive owner mem named leaving
      · obtain rfl := Option.some.inj run
        exact inv

/-- A reference is left, and its entity told. -/
theorem Inv.leave (inv : Inv id s) (owner : s.pEntity = some o) (mem : ref ∈ s.aoiEntities) (named : ref.id = id e) :
    ∃ t, s.unwitness id ref = some t ∧ Inv id (t.setRefs (changeRef (id e) EntityRef.leave t.aoiEntities)) := by
  obtain ⟨witnesses, run, fewer, gone⟩ := Witnesses.foldlM_unwitness owner [ref]
  refine ⟨{ s with witnesses := witnesses }, by simpa using run, ?_⟩
  have changed : ∀ d, d ∈ changeRef (id e) EntityRef.leave s.aoiEntities ↔
      (d ∈ s.aoiEntities ∧ d.id ≠ id e) ∨ d = ref.leave := by
    intro d
    rw [mem_changeRef inv.once]
    refine or_congr_right ⟨?_, fun is => ⟨ref, mem, named, is⟩⟩
    rintro ⟨old, there, same, rfl⟩
    rw [inv.ref_inj there mem (same.trans named.symm)]
  constructor
  · dsimp only [Witness.setRefs]
    rw [ids_changeRef (f := EntityRef.leave) fun ref _ => rfl]
    exact inv.once
  · intro d memD p is
    rcases (changed d).1 memD with ⟨there, -⟩ | rfl
    · exact inv.named d there p is
    · cases is
  · intro d memD
    rcases (changed d).1 memD with ⟨there, -⟩ | rfl
    · exact inv.pending d there
    · rfl
  · intro none'
    exact absurd (owner.symm.trans none') (Option.some_ne_none o)
  · intro d p memP
    have before : p ∈ s.witnesses d := fewer d p memP
    obtain ⟨isOwner, other, there, is⟩ := inv.written d p before
    refine ⟨isOwner, other, (changed other).2 (.inl ⟨there, fun sameId => ?_⟩), is⟩
    rw [inv.ref_inj there mem (sameId.trans named.symm)] at is
    rw [owner] at isOwner
    obtain rfl : id o = p := Option.some.inj isOwner
    exact gone ref List.mem_cons_self d is memP

theorem Inv.onLeaveAOI (inv : Inv id s) (run : s.onLeaveAOI id kind e = some t) : Inv id t := by
  rw [Witness.onLeaveAOI] at run
  split_ifs at run with outer
  · obtain rfl := Option.some.inj run
    exact inv
  · obtain ⟨o, owner, run⟩ := Option.bind_eq_some_iff.1 run
    have owner : s.pEntity = some o := owner
    cases found : s.aoiEntities.find? (fun ref => ref.id = id e) with
    | none =>
      rw [found] at run
      obtain rfl := Option.some.inj run
      exact inv
    | some ref =>
      rw [found] at run
      have mem := List.mem_of_find?_eq_some found
      have named : ref.id = id e := by simpa using List.find?_some found
      obtain ⟨u, left, invU⟩ := inv.leave owner mem named
      dsimp only at run
      rw [left] at run
      obtain rfl := Option.some.inj run
      exact invU

theorem Inv.deliver (inv : Inv id s) {event : Event} (run : s.deliver id kind event = some t) : Inv id t := by
  rw [Witness.deliver] at run
  split_ifs at run
  · exact inv.onEnterAOI run
  · exact inv.onLeaveAOI run

section Triggers

variable {range radius hyst : Coordinate} {events aoi hysteresis : List Event}

theorem Inv.install (inv : Inv id s) (run : s.install id kind range events = some t) : Inv id t :=
  foldlM_keeps (Inv id) (fun _ _ _ inv next => inv.deliver next) (inv.setTrigger _) run

theorem Inv.updateTrigger {r : Trigger} (inv : Inv id s) (run : s.updateTrigger id kind r range events = some t) : Inv id t := by
  rw [Witness.updateTrigger] at run
  split_ifs at run
  · exact inv.install run
  · obtain rfl := Option.some.inj run
    exact inv.setTrigger _

theorem Inv.place (inv : Inv id s) (run : s.place id kind range events = some t) : Inv id t := by
  rw [Witness.place] at run
  split_ifs at run
  · exact inv.install run
  · exact inv.updateTrigger run

theorem Inv.setAoiRadius (inv : Inv id s) (run : s.setAoiRadius id radius hyst aoi hysteresis = some t) : Inv id t := by
  rw [Witness.setAoiRadius] at run
  dsimp only at run
  have inv : Inv id { s with aoiRadius := radius, aoiHysteresisArea := hyst } := inv.congr rfl rfl rfl
  split_ifs at run
  · obtain rfl := Option.some.inj run
    exact inv.congr rfl rfl rfl
  · obtain ⟨u, first, run⟩ := Option.bind_eq_some_iff.1 run
    exact (inv.place first).place run
  · obtain ⟨u, first, run⟩ := Option.bind_eq_some_iff.1 run
    have invU := inv.place first
    split at run
    · exact invU.updateTrigger run
    · obtain rfl := Option.some.inj run
      exact invU
  · obtain ⟨u, left, invU⟩ := inv.uninstallAOITrigger
    obtain rfl := Option.some.inj (left.symm.trans run)
    exact invU

theorem Inv.reinstall (inv : Inv id s) (run : s.reinstall id kind events = some t) : Inv id t := by
  rw [Witness.reinstall] at run
  split at run
  · obtain rfl := Option.some.inj run
    exact inv
  · split_ifs at run
    exact inv.install run

theorem Inv.onEnterSpace (inv : Inv id s) (run : s.onEnterSpace id aoi hysteresis = some t) : Inv id t := by
  rw [Witness.onEnterSpace, Witness.installAOITrigger] at run
  split_ifs at run
  · obtain rfl := Option.some.inj run
    exact inv
  · obtain ⟨u, first, run⟩ := Option.bind_eq_some_iff.1 run
    exact (inv.reinstall first).reinstall run

end Triggers

/-- The references that were left are dropped. -/
theorem Inv.resetAOIEntities (inv : Inv id s) : Inv id s.resetAOIEntities := by
  have kept : ∀ ref' ∈ s.resetAOIEntities.aoiEntities, ∃ ref ∈ s.aoiEntities, ref.leavePending = false ∧
      ref'.id = ref.id ∧ ref'.pEntity = ref.pEntity ∧ ref'.leavePending = false := by
    intro ref' mem
    obtain ⟨ref, there, rfl⟩ := List.mem_map.1 mem
    rw [List.mem_filter] at there
    exact ⟨ref, there.1, by simpa using there.2, rfl, rfl, rfl⟩
  constructor
  · have ids : s.resetAOIEntities.aoiEntities.map EntityRef.id = (s.aoiEntities.filter (!·.leavePending)).map EntityRef.id := by
      rw [Witness.resetAOIEntities, Witness.setRefs, List.map_map]
      rfl
    rw [ids]
    exact inv.once.sublist ((List.filter_sublist).map _)
  · intro ref' mem e is
    obtain ⟨ref, there, -, sameId, same, -⟩ := kept ref' mem
    rw [sameId]
    exact inv.named ref there e (same.symm.trans is)
  · intro ref' mem
    obtain ⟨ref, there, live, -, same, live'⟩ := kept ref' mem
    rw [live', same, ← live]
    exact inv.pending ref there
  · intro owner
    rw [Witness.resetAOIEntities, Witness.setRefs, inv.owned owner]
    rfl
  · intro e o mem
    obtain ⟨isOwner, ref, there, is⟩ := inv.written e o mem
    have live : ref.leavePending = false := by
      rw [inv.pending ref there, is]
      rfl
    refine ⟨isOwner, ⟨ref.id, ref.pEntity, true, false, false⟩, ?_, is⟩
    exact List.mem_map.2 ⟨ref, List.mem_filter.2 ⟨there, by simp [live]⟩, rfl⟩

/-- The loop of `clear` goes through when every reference has an entity. -/
theorem foldlM_clear (refs : List EntityRef) : refs.foldlM (fun s ref => ref.pEntity.bind (s.delWitnessed id)) s =
    if ∀ ref ∈ refs, ref.pEntity.isSome then refs.foldlM (Witness.unwitness id) s else none := by
  induction refs generalizing s with
  | nil => simp
  | cons ref refs ih =>
    cases is : ref.pEntity with
    | none =>
      have some' : ¬ ∀ ref' ∈ ref :: refs, ref'.pEntity.isSome := by simp [is]
      rw [if_neg some', List.foldlM_cons, is]
      rfl
    | some e =>
      have same : (∀ ref' ∈ ref :: refs, ref'.pEntity.isSome) ↔ ∀ ref' ∈ refs, ref'.pEntity.isSome := by simp [is]
      simp only [List.foldlM_cons, is, Option.bind_some, Witness.unwitness, same, ih]
      split_ifs
      · rfl
      · cases s.delWitnessed id e <;> rfl

/-- `clear` goes through exactly when no reference is marked as leaving, and takes back all that was written. -/
theorem Inv.clear_eq (inv : Inv id s) : s.clear id =
    if ∀ ref ∈ s.aoiEntities, ref.leavePending = false then
      some ⟨none, .num 0, .num 5, fun _ => none, [], fun _ => [], s.inSystem⟩
    else none := by
  have same : (∀ ref ∈ s.aoiEntities, ref.pEntity.isSome) ↔ ∀ ref ∈ s.aoiEntities, ref.leavePending = false := by
    refine forall₂_congr fun ref mem => ?_
    rw [inv.pending ref mem, Option.isNone_eq_false_iff]
  rw [Witness.clear, foldlM_clear, inv.foldlM_unwitness]
  simp only [same]
  split_ifs
  · rfl
  · rfl

/-- While references are stored the witness stays with one owner. -/
def Steady (id : Nat → Nat) (s : Witness) : Action → Prop
  | .attach pEntity _ _ _ _ => s.aoiEntities = [] ∨ s.pEntity.map id = some (id pEntity)
  | _ => True

theorem Inv.attach {p : Nat} {radius hyst : Coordinate} {aoi hysteresis : List Event} (inv : Inv id s)
    (steady : s.aoiEntities = [] ∨ s.pEntity.map id = some (id p)) (run : s.attach id p radius hyst aoi hysteresis = some t) :
    Inv id t := by
  have inv' : Inv id { s with pEntity := some p } := by
    refine ⟨inv.once, inv.named, inv.pending, nofun, ?_⟩
    intro e o mem
    obtain ⟨isOwner, ref, there, is⟩ := inv.written e o mem
    refine ⟨?_, ref, there, is⟩
    rcases steady with none' | same
    · rw [none'] at there
      cases there
    · rw [← isOwner, same]
      rfl
  exact inv'.setAoiRadius run

theorem Inv.step {a : Action} (inv : Inv id s) (steady : Steady id s a) (next : step id s a = some t) : Inv id t := by
  cases a with
  | attach p radius hyst aoi hysteresis => exact inv.attach steady next
  | setAoiRadius radius hyst aoi hysteresis => exact inv.setAoiRadius next
  | node p inSystem =>
    obtain rfl := Option.some.inj next
    exact inv.congr rfl rfl rfl
  | onEnterSpace aoi hysteresis => exact inv.onEnterSpace next
  | onLeaveSpace =>
    obtain ⟨u, left, invU⟩ := inv.onLeaveSpace
    obtain rfl := Option.some.inj (left.symm.trans next)
    exact invU
  | event kind event =>
    rw [Witnesses.step] at next
    split_ifs at next
    exact inv.deliver next
  | resetAOIEntities =>
    obtain rfl := Option.some.inj next
    exact inv.resetAOIEntities
  | detach =>
    have next : s.clear id = some t := next
    rw [inv.clear_eq] at next
    split_ifs at next
    obtain rfl := Option.some.inj next
    exact inv_of_unwritten .nil nofun (fun _ => rfl) fun _ => rfl

/-- **The teardown.** After any calls and events `clear` goes through, and leaves the owner in nobody's list, if and only if no
stored reference is marked as leaving. -/
theorem teardown_iff (id : Nat → Nat) (as : List Action) (s : Witness) (run : Runs (step id) (Steady id) .fresh as s) :
    (∃ t, s.clear id = some t ∧ ∀ o ∈ s.pEntity, ∀ e, id o ∉ t.witnesses e) ↔
      ∀ ref ∈ s.aoiEntities, ref.leavePending = false := by
  have inv : Inv id s := run.invariant (Inv id) inv_fresh fun _ _ _ inv steady next => inv.step steady next
  rw [inv.clear_eq]
  constructor
  · rintro ⟨t, clear, -⟩
    split_ifs at clear with live
    exact live
  · intro live
    rw [if_pos live]
    exact ⟨_, rfl, fun _ _ _ => List.not_mem_nil⟩

instance (id : Nat → Nat) (s : Witness) : (a : Action) → Decidable (Steady id s a)
  | .attach _ _ _ _ _ => inferInstanceAs (Decidable (_ ∨ _))
  | .setAoiRadius _ _ _ _ => inferInstanceAs (Decidable True)
  | .node _ _ => inferInstanceAs (Decidable True)
  | .onEnterSpace _ _ => inferInstanceAs (Decidable True)
  | .onLeaveSpace => inferInstanceAs (Decidable True)
  | .event _ _ => inferInstanceAs (Decidable True)
  | .resetAOIEntities => inferInstanceAs (Decidable True)
  | .detach => inferInstanceAs (Decidable True)

/-- Two entities come in, and one of them goes out and comes back. -/
theorem teardown_iff_back : ∃ s, Runs (step (· + 100)) (Steady (· + 100)) .fresh
      [.attach 1 (.num 5) (.num 1) [] [], .node 1 true, .onEnterSpace [⟨true, 2⟩] [], .event .aoi ⟨true, 3⟩,
        .event .hysteresis ⟨false, 2⟩, .event .aoi ⟨true, 2⟩] s ∧
    (s.witnesses 2 = [101] ∧ s.witnesses 3 = [101]) ∧
    ∃ t, s.clear (· + 100) = some t ∧ ∀ o ∈ s.pEntity, ∀ e, o + 100 ∉ t.witnesses e := by
  obtain ⟨s, run, seen, live⟩ : ∃ s, Runs (step (· + 100)) (Steady (· + 100)) .fresh
      [.attach 1 (.num 5) (.num 1) [] [], .node 1 true, .onEnterSpace [⟨true, 2⟩] [], .event .aoi ⟨true, 3⟩,
        .event .hysteresis ⟨false, 2⟩, .event .aoi ⟨true, 2⟩] s ∧
      (s.witnesses 2 = [101] ∧ s.witnesses 3 = [101]) ∧ ∀ ref ∈ s.aoiEntities, ref.leavePending = false := by
    apply Runs.exists_of_decide
    decide +kernel
  exact ⟨s, run, seen, (teardown_iff (· + 100) _ s run).2 live⟩

/-- One entity comes in and goes out. -/
theorem clear_null : ∃ s, Runs (step (· + 100)) (Steady (· + 100)) .fresh
      [.attach 1 (.num 5) (.num 1) [] [], .node 1 true, .onEnterSpace [⟨true, 2⟩] [], .event .hysteresis ⟨false, 2⟩] s ∧
    s.clear (· + 100) = none := by
  obtain ⟨s, run, fails⟩ : ∃ s, Runs (step (· + 100)) (Steady (· + 100)) .fresh
      [.attach 1 (.num 5) (.num 1) [] [], .node 1 true, .onEnterSpace [⟨true, 2⟩] [], .event .hysteresis ⟨false, 2⟩] s ∧
      (s.clear (· + 100)).isNone = true := by
    apply Runs.exists_of_decide
    decide +kernel
  exact ⟨s, run, Option.isNone_iff_eq_none.1 fails⟩

end GameServer.Witnesses

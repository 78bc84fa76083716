import GameServer.Aoi.Views
import GameServer.Aoi.MapManager
import Mathlib.Data.List.Nodup

/-!
# Who sees and who is seen

`aoiEntities_` says whom a witness sees and `witnesses_` who sees an entity. Every callback
changes both: an entity that a witness has no live reference to gets the witness, and a
reference that is ended had its entity, which loses the witness (`Views.Mutual`). So a pass
keeps the two together (`mutual_pass`), and so does a witness that leaves the space
(`Views.Mutual.onLeaveSpace`).
-/

namespace GameServer.Aoi

open GameServer.Lib

/-- A witness is listed once with those it has a live reference to, and not with the others. -/
structure Views.Mutual (v : Views) : Prop extends Views.Sound v where
  left : ∀ o, ∀ ref ∈ v.aoiEntities o, ref.leavePending = true → ref.pEntity = none
  once : ∀ o e, v.Live o e → (v.witnesses e).count o = 1
  never : ∀ o e, ¬ v.Live o e → o ∉ v.witnesses e

section Callbacks

variable {v w : Views} {o e : Nat} {ref : EntityRef} {refs : List EntityRef}

theorem Views.Mutual.sees_iff (both : v.Mutual) : (∃ ref ∈ v.aoiEntities o, ref.pEntity = some e) ↔ v.Live o e := by
  constructor
  · rintro ⟨ref, mem, sees⟩
    cases leaving : ref.leavePending with
    | true =>
      rw [both.left o ref mem leaving] at sees
      cases sees
    | false =>
      have id := both.here o ref mem leaving
      rw [sees] at id
      exact ⟨ref, mem, (Option.some.inj id).symm, sees, leaving⟩
  · rintro ⟨ref, mem, -, sees, -⟩
    exact ⟨ref, mem, sees⟩

/-- The reference to `e` decides whether it is live. -/
theorem Views.Sound.live_iff (sound : v.Sound) (mem : ref ∈ v.aoiEntities o) (id : ref.id = e) :
    v.Live o e ↔ ref.leavePending = false := by
  constructor
  · rintro ⟨ref', mem', id', -, live⟩
    obtain rfl := List.inj_on_of_nodup_map (sound.nodup o) mem mem' (id.trans id'.symm)
    exact live
  · intro live
    exact ⟨ref, mem, id, id ▸ sound.here o ref mem live, live⟩

/-- A witness comes to see one more entity. -/
theorem Views.Mutual.add (both : v.Mutual) (sound : w.Sound)
    (left : ∀ o, ∀ ref ∈ w.aoiEntities o, ref.leavePending = true → ref.pEntity = none)
    (witnesses : w.witnesses = Function.update v.witnesses e (v.witnesses e ++ [o]))
    (live : ∀ o' e', w.Live o' e' ↔ v.Live o' e' ∨ o' = o ∧ e' = e) (absent : ¬ v.Live o e) : w.Mutual := by
  refine ⟨sound, left, fun o' e' => ?_, fun o' e' => ?_⟩
  · rw [live, witnesses]
    by_cases entity : e' = e
    · rw [entity, Function.update_self, List.count_append]
      by_cases witness : o' = o
      · rw [witness, List.count_eq_zero.2 (both.never o e absent), List.count_singleton_self]
        exact fun _ => rfl
      · rw [List.count_eq_zero.2 fun mem => witness (List.mem_singleton.1 mem)]
        exact fun seen => both.once o' e (seen.resolve_right fun pair => witness pair.1)
    · rw [Function.update_of_ne entity]
      exact fun seen => both.once o' e' (seen.resolve_right fun pair => entity pair.2)
  · rw [live, witnesses]
    intro unseen mem
    by_cases entity : e' = e
    · rw [entity, Function.update_self] at mem
      rcases List.mem_append.1 mem with mem | mem
      · exact both.never o' e (fun seen => unseen (.inl (entity ▸ seen))) mem
      · exact unseen (.inr ⟨List.mem_singleton.1 mem, entity⟩)
    · rw [Function.update_of_ne entity] at mem
      exact both.never o' e' (fun seen => unseen (.inl seen)) mem

theorem count_filter_ne {o o' : Nat} (other : o' ≠ o) (l : List Nat) : (l.filter (· ≠ o)).count o' = l.count o' :=
  List.count_filter (by simpa using other)

theorem not_mem_filter_ne (o : Nat) (l : List Nat) : o ∉ l.filter (· ≠ o) := by
  intro mem
  simpa using (List.mem_filter.1 mem).2

/-- A witness ceases to see one entity. -/
theorem Views.Mutual.del (both : v.Mutual) (sound : w.Sound)
    (left : ∀ o, ∀ ref ∈ w.aoiEntities o, ref.leavePending = true → ref.pEntity = none)
    (witnesses : w.witnesses = Function.update v.witnesses e ((v.witnesses e).filter (· ≠ o)))
    (live : ∀ o' e', w.Live o' e' ↔ v.Live o' e' ∧ ¬ (o' = o ∧ e' = e)) : w.Mutual := by
  refine ⟨sound, left, fun o' e' => ?_, fun o' e' => ?_⟩
  · rw [live, witnesses]
    rintro ⟨seen, other⟩
    by_cases entity : e' = e
    · rw [entity, Function.update_self, count_filter_ne fun witness => other ⟨witness, entity⟩]
      exact both.once o' e (entity ▸ seen)
    · rw [Function.update_of_ne entity]
      exact both.once o' e' seen
  · rw [live, witnesses]
    intro unseen mem
    by_cases entity : e' = e
    · rw [entity, Function.update_self] at mem
      by_cases witness : o' = o
      · rw [witness] at mem
        exact not_mem_filter_ne o _ mem
      · refine both.never o' e (fun seen => unseen ⟨entity ▸ seen, fun pair => witness pair.1⟩) ?_
        exact (List.mem_filter.1 mem).1
    · rw [Function.update_of_ne entity] at mem
      exact both.never o' e' (fun seen => unseen ⟨seen, fun pair => entity pair.2⟩) mem

/-- The references of a witness after one of them was changed. -/
theorem left_changeRef (both : v.Mutual) {f : EntityRef → EntityRef}
    (left : ∀ ref, (f ref).leavePending = true → (f ref).pEntity = none) (o' : Nat) :
    ∀ ref ∈ (v.setRefs o (Views.changeRef e f (v.aoiEntities o))).aoiEntities o',
      ref.leavePending = true → ref.pEntity = none := by
  intro ref mem leaving
  by_cases witness : o' = o
  · simp only [Views.setRefs, witness, Function.update_self] at mem
    rcases (mem_changeRef (both.nodup o)).1 mem with ⟨mem, -⟩ | ⟨old, -, -, rfl⟩
    · exact both.left o ref mem leaving
    · exact left old leaving
  · simp only [Views.setRefs, Function.update_of_ne witness] at mem
    exact both.left o' ref mem leaving

theorem Views.Mutual.onEnterAOI (both : v.Mutual) (kind : Kind) : (v.onEnterAOI o kind e).Mutual := by
  have sound := both.toSound.onEnterAOI (o := o) (e := e) kind
  have live : ∀ o' e', (v.onEnterAOI o kind e).Live o' e' ↔ v.Live o' e' ∨ kind = .aoi ∧ o' = o ∧ e' = e :=
    fun _ _ => live_onEnterAOI both.toSound kind
  cases kind with
  | hysteresis => exact both
  | aoi =>
    simp only [true_and] at live
    cases found : (v.aoiEntities o).find? (fun ref => ref.id = e) with
    | some ref =>
      obtain ⟨mem, id⟩ := find_ref found
      cases leaving : ref.leavePending with
      | true =>
        have eq : v.onEnterAOI o .aoi e =
            (v.setRefs o (Views.changeRef e EntityRef.revive (v.aoiEntities o))).addWitnessed e o := by
          simp [Views.onEnterAOI, found, leaving]
        rw [eq] at sound live ⊢
        refine both.add sound (left_changeRef both nofun) rfl live ?_
        rw [both.toSound.live_iff mem id, leaving]
        nofun
      | false =>
        have eq : v.onEnterAOI o .aoi e = v := by simp [Views.onEnterAOI, found, leaving]
        rw [eq]
        exact both
    | none =>
      have eq : v.onEnterAOI o .aoi e =
          (v.setRefs o (v.aoiEntities o ++ [⟨e, some e, true, false, false⟩])).addWitnessed e o := by
        simp [Views.onEnterAOI, found]
      rw [eq] at sound live ⊢
      refine both.add sound (fun o' ref mem leaving => ?_) rfl live ?_
      · by_cases witness : o' = o
        · simp only [Views.addWitnessed, Views.setRefs, witness, Function.update_self] at mem
          rcases List.mem_append.1 mem with mem | mem
          · exact both.left o ref mem leaving
          · rw [List.mem_singleton.1 mem] at leaving
            cases leaving
        · simp only [Views.addWitnessed, Views.setRefs, Function.update_of_ne witness] at mem
          exact both.left o' ref mem leaving
      · rintro ⟨ref, mem, id, -⟩
        have other := List.find?_eq_none.1 found ref mem
        exact other (by simpa using id)

theorem Views.Mutual.onLeaveAOI (both : v.Mutual) (witness : Witness) (kind : Kind) :
    (v.onLeaveAOI o witness kind e).Mutual := by
  have sound := both.toSound.onLeaveAOI (o := o) (e := e) witness kind
  have live : ∀ o' e', (v.onLeaveAOI o witness kind e).Live o' e' ↔
      v.Live o' e' ∧ ¬ (¬ ((witness.range .hysteresis).isSome ∧ kind ≠ .hysteresis) ∧ o' = o ∧ e' = e) :=
    fun _ _ => live_onLeaveAOI both.toSound witness kind
  by_cases ignored : (witness.range .hysteresis).isSome ∧ kind ≠ .hysteresis
  · rw [Views.onLeaveAOI, if_pos ignored]
    exact both
  simp only [ignored, not_false_eq_true, true_and] at live
  cases found : (v.aoiEntities o).find? (fun ref => ref.id = e) with
  | none =>
    have eq : v.onLeaveAOI o witness kind e = v := by rw [Views.onLeaveAOI, if_neg ignored, found]
    rw [eq]
    exact both
  | some ref =>
    obtain ⟨mem, id⟩ := find_ref found
    have eq : v.onLeaveAOI o witness kind e = v.leaveRef o e ref := by rw [Views.onLeaveAOI, if_neg ignored, found]
    rw [eq] at sound live ⊢
    have left : ∀ o', ∀ ref' ∈ (v.leaveRef o e ref).aoiEntities o', ref'.leavePending = true → ref'.pEntity = none := by
      rw [aoiEntities_leaveRef]
      exact left_changeRef both fun _ _ => rfl
    cases leaving : ref.leavePending with
    | false =>
      have sees : ref.pEntity = some e := id ▸ both.here o ref mem leaving
      refine both.del sound left ?_ live
      simp only [Views.leaveRef, sees]
      rfl
    | true =>
      -- it was left before
      have gone : ref.pEntity = none := both.left o ref mem leaving
      have absent : ¬ v.Live o e := by
        rw [both.toSound.live_iff mem id, leaving]
        nofun
      have same : ∀ o' e', (v.leaveRef o e ref).Live o' e' ↔ v.Live o' e' := by
        intro o' e'
        rw [live]
        refine and_iff_left_of_imp ?_
        rintro seen ⟨rfl, rfl⟩
        exact absent seen
      have witnesses : (v.leaveRef o e ref).witnesses = v.witnesses := by
        simp only [Views.leaveRef, gone]
        rfl
      refine ⟨sound, left, fun o' e' => ?_, fun o' e' => ?_⟩
      · rw [same, witnesses]
        exact both.once o' e'
      · rw [same, witnesses]
        exact both.never o' e'

end Callbacks

theorem Layout.mutual_pass {v : Views} (both : v.Mutual) (l : Layout) (a : Axis) (n c : Node) (up : Bool) :
    (l.pass a n c up v).Mutual := by
  rcases Layout.pass_cases l a n c up v with same | ⟨b, e, isfront, -, same⟩
  · rw [same]
    exact both
  · rw [same]
    rcases Layout.onNodePass_cases l a b e isfront v with same | ⟨-, same⟩ | ⟨-, -, same⟩
    · rw [same]
      exact both
    · rw [same]
      exact both.onEnterAOI b.kind
    · rw [same]
      exact both.onLeaveAOI _ b.kind

/-- An entity does not see itself. -/
theorem Layout.pass_self {l : Layout} {v : Views} {a : Axis} {id e : Nat} {c : Node} {up : Bool} (sound : v.Sound)
    (live : (l.pass a (.entity id) c up v).Live id e) : v.Live id e := by
  rcases Layout.pass_old_or sound live with old | ⟨b, origin, -, -, ⟨-, rfl⟩ | ⟨same, -⟩⟩
  · exact old
  · have same : l.pass a (.entity id) (.boundary b) up v = v := by
      cases a <;>
        simp [Layout.pass, Node.hidden, Layout.onNodePass, Layout.onNodePassX, Layout.onNodePassY, Layout.onNodePassZ, origin]
    rwa [same] at live
  · cases same

section Leaving

variable {v : Views} {o e : Nat} {ref : EntityRef} {refs : List EntityRef}

theorem delWitnesses_none (gone : ref.pEntity = none) : v.delWitnesses o (ref :: refs) = v.delWitnesses o refs := by
  simp only [Views.delWitnesses, List.foldl_cons, gone]

theorem delWitnesses_some (sees : ref.pEntity = some e) :
    v.delWitnesses o (ref :: refs) = (v.delWitnessed e o).delWitnesses o refs := by
  simp only [Views.delWitnesses, List.foldl_cons, sees]

theorem aoiEntities_delWitnesses (v : Views) (o : Nat) (refs : List EntityRef) :
    (v.delWitnesses o refs).aoiEntities = v.aoiEntities := by
  refine foldl_keeps (fun w : Views => w.aoiEntities = v.aoiEntities) refs (fun w ref _ same => ?_) rfl
  split
  · exact same
  · exact same

/-- The witness is taken from the entities that the references are to. -/
theorem witnesses_delWitnesses (v : Views) (o : Nat) (refs : List EntityRef) (e : Nat) :
    (∃ ref ∈ refs, ref.pEntity = some e) ∧ (v.delWitnesses o refs).witnesses e = (v.witnesses e).filter (· ≠ o) ∨
    (∀ ref ∈ refs, ref.pEntity ≠ some e) ∧ (v.delWitnesses o refs).witnesses e = v.witnesses e := by
  induction refs generalizing v with
  | nil => exact .inr ⟨nofun, rfl⟩
  | cons ref refs ih =>
    cases sees : ref.pEntity with
    | none =>
      rw [delWitnesses_none sees]
      rcases ih v with ⟨⟨ref', mem, sees'⟩, eq⟩ | ⟨absent, eq⟩
      · exact .inl ⟨⟨ref', List.mem_cons_of_mem ref mem, sees'⟩, eq⟩
      · refine .inr ⟨fun ref' mem => ?_, eq⟩
        rcases List.mem_cons.1 mem with rfl | mem
        · rw [sees]
          nofun
        · exact absent ref' mem
    | some e' =>
      rw [delWitnesses_some sees]
      by_cases same : e' = e
      · subst same
        have first : (v.delWitnessed e' o).witnesses e' = (v.witnesses e').filter (· ≠ o) := Function.update_self ..
        refine .inl ⟨⟨ref, List.mem_cons_self, sees⟩, ?_⟩
        rcases ih (v.delWitnessed e' o) with ⟨-, eq⟩ | ⟨-, eq⟩
        · rw [eq, first, List.filter_filter]
          simp
        · rw [eq, first]
      · have first : (v.delWitnessed e' o).witnesses e = v.witnesses e := Function.update_of_ne (Ne.symm same) ..
        rcases ih (v.delWitnessed e' o) with ⟨⟨ref', mem, sees'⟩, eq⟩ | ⟨absent, eq⟩
        · rw [first] at eq
          exact .inl ⟨⟨ref', List.mem_cons_of_mem ref mem, sees'⟩, eq⟩
        · rw [first] at eq
          refine .inr ⟨fun ref' mem => ?_, eq⟩
          rcases List.mem_cons.1 mem with rfl | mem
          · rw [sees]
            exact fun there => same (Option.some.inj there)
          · exact absent ref' mem

/-- The witness of `o` leaves everybody; `refs` are what remains of its references. -/
theorem Views.Mutual.leave (both : v.Mutual) (nodup : (refs.map EntityRef.id).Nodup)
    (gone : ∀ ref ∈ refs, ref.leavePending = true ∧ ref.pEntity = none) :
    ((v.delWitnesses o (v.aoiEntities o)).setRefs o refs).Mutual ∧
      ∀ o' e, ((v.delWitnesses o (v.aoiEntities o)).setRefs o refs).Live o' e ↔ v.Live o' e ∧ o' ≠ o := by
  have refs_eq : ((v.delWitnesses o (v.aoiEntities o)).setRefs o refs).aoiEntities =
      (v.setRefs o refs).aoiEntities := by
    simp only [Views.setRefs, aoiEntities_delWitnesses]
  have live : ∀ o' e, ((v.delWitnesses o (v.aoiEntities o)).setRefs o refs).Live o' e ↔ v.Live o' e ∧ o' ≠ o := by
    intro o' e
    unfold Views.Live
    rw [refs_eq]
    show (v.setRefs o refs).Live o' e ↔ _
    by_cases witness : o' = o
    · rw [witness, live_setRefs_self]
      refine ⟨fun seen => ?_, fun seen => (seen.2 rfl).elim⟩
      obtain ⟨ref, mem, -, -, live⟩ := seen
      rw [(gone ref mem).1] at live
      cases live
    · rw [live_setRefs witness]
      exact ⟨fun seen => ⟨seen, witness⟩, And.left⟩
  have sound : (v.setRefs o refs).Sound := by
    refine both.toSound.setRefs nodup fun ref mem live => ?_
    rw [(gone ref mem).1] at live
    cases live
  refine ⟨⟨⟨?_, ?_⟩, fun o' ref mem leaving => ?_, fun o' e seen => ?_, fun o' e unseen mem => ?_⟩, live⟩
  · rw [refs_eq]
    exact sound.nodup
  · rw [refs_eq]
    exact sound.here
  · rw [refs_eq] at mem
    by_cases witness : o' = o
    · simp only [Views.setRefs, witness, Function.update_self] at mem
      exact (gone ref mem).2
    · simp only [Views.setRefs, Function.update_of_ne witness] at mem
      exact both.left o' ref mem leaving
  · obtain ⟨seen, witness⟩ := (live o' e).1 seen
    show ((v.delWitnesses o (v.aoiEntities o)).witnesses e).count o' = 1
    rcases witnesses_delWitnesses v o (v.aoiEntities o) e with ⟨-, eq⟩ | ⟨-, eq⟩
    · rw [eq, count_filter_ne witness]
      exact both.once o' e seen
    · rw [eq]
      exact both.once o' e seen
  · have mem : o' ∈ (v.delWitnesses o (v.aoiEntities o)).witnesses e := mem
    rcases witnesses_delWitnesses v o (v.aoiEntities o) e with ⟨-, eq⟩ | ⟨absent, eq⟩
    · rw [eq] at mem
      by_cases witness : o' = o
      · rw [witness] at mem
        exact not_mem_filter_ne o _ mem
      · exact both.never o' e (fun seen => unseen ((live o' e).2 ⟨seen, witness⟩)) (List.mem_filter.1 mem).1
    · rw [eq] at mem
      refine both.never o' e (fun seen => ?_) mem
      by_cases witness : o' = o
      · obtain ⟨ref, there, sees⟩ := both.sees_iff.2 seen
        rw [witness] at there
        exact absent ref there sees
      · exact unseen ((live o' e).2 ⟨seen, witness⟩)

/-- **Leaving the space**: the witness sees nobody, and the others see whom they saw. -/
theorem Views.Mutual.onLeaveSpace (both : v.Mutual) (o : Nat) : ((v.leaveAll o).clearRefs o).Mutual ∧
    ∀ o' e, ((v.leaveAll o).clearRefs o).Live o' e ↔ v.Live o' e ∧ o' ≠ o := by
  have ids : ((v.aoiEntities o).map EntityRef.leave).map EntityRef.id = (v.aoiEntities o).map EntityRef.id := by
    rw [List.map_map]
    rfl
  have gone : ∀ ref ∈ (v.aoiEntities o).map EntityRef.leave, ref.leavePending = true ∧ ref.pEntity = none := by
    intro ref mem
    obtain ⟨old, -, rfl⟩ := List.mem_map.1 mem
    exact ⟨rfl, rfl⟩
  have first : (v.leaveAll o).Mutual ∧ ∀ o' e, (v.leaveAll o).Live o' e ↔ v.Live o' e ∧ o' ≠ o :=
    both.leave (ids ▸ both.nodup o) gone
  have second : ((v.leaveAll o).clearRefs o).Mutual ∧
      ∀ o' e, ((v.leaveAll o).clearRefs o).Live o' e ↔ (v.leaveAll o).Live o' e ∧ o' ≠ o :=
    first.1.leave List.nodup_nil nofun
  refine ⟨second.1, fun o' e => ?_⟩
  rw [second.2, first.2, and_assoc, and_self]

end Leaving

end GameServer.Aoi

import GameServer.Aoi.Space

/-!
# What a pass does to the views

A witness's references have distinct ids, and one that is not leaving has its entity
(`Views.Sound`). The AOI trigger only ever makes a reference live and, with a hysteresis
area, only its trigger ends one (`live_onEnterAOI`, `live_onLeaveAOI`). A pass of a boundary
and an entity enters it only where it is in range now, and leaves it only where it was in
range and is not (`pass_live`, `pass_dead`); on the first of the axes z, y, x on which its
being in range changes, it does either (`pass_enters`, `pass_leaves`).
-/

namespace GameServer.Aoi

/-- The witness of `o` holds a live reference to `e`. -/
def Views.Live (v : Views) (o e : Nat) : Prop :=
  ∃ ref ∈ v.aoiEntities o, ref.id = e ∧ ref.pEntity = some e ∧ ref.leavePending = false

structure Views.Sound (v : Views) : Prop where
  nodup : ∀ o, ((v.aoiEntities o).map EntityRef.id).Nodup
  here : ∀ o, ∀ ref ∈ v.aoiEntities o, ref.leavePending = false → ref.pEntity = some ref.id

section Refs

open Views

variable {refs : List EntityRef} {f : EntityRef → EntityRef} {e : Nat} {ref : EntityRef}

theorem ids_changeRef (keeps : ∀ ref, ref.id = e → (f ref).id = ref.id) :
    (changeRef e f refs).map EntityRef.id = refs.map EntityRef.id := by
  induction refs with
  | nil => rfl
  | cons first refs ih =>
    rw [changeRef]
    split_ifs with here
    · simp [keeps first here]
    · simp [ih]

theorem mem_changeRef (nodup : (refs.map EntityRef.id).Nodup) :
    ref ∈ changeRef e f refs ↔ (ref ∈ refs ∧ ref.id ≠ e) ∨ ∃ old ∈ refs, old.id = e ∧ ref = f old := by
  induction refs with
  | nil => simp [changeRef]
  | cons first refs ih =>
    rw [List.map_cons, List.nodup_cons] at nodup
    obtain ⟨once, nodup⟩ := nodup
    rw [changeRef]
    split_ifs with here
    · have rest : ∀ other ∈ refs, other.id ≠ e := by
        intro other mem same
        exact once (List.mem_map.2 ⟨other, mem, same.trans here.symm⟩)
      constructor
      · intro mem
        rcases List.mem_cons.1 mem with rfl | mem
        · exact .inr ⟨first, List.mem_cons_self, here, rfl⟩
        · exact .inl ⟨List.mem_cons_of_mem _ mem, rest ref mem⟩
      · rintro (⟨mem, other⟩ | ⟨old, mem, same, rfl⟩)
        · rcases List.mem_cons.1 mem with rfl | mem
          · exact absurd here other
          · exact List.mem_cons_of_mem _ mem
        · rcases List.mem_cons.1 mem with rfl | mem
          · exact List.mem_cons_self
          · exact absurd same (rest old mem)
    · rw [List.mem_cons, ih nodup]
      constructor
      · rintro (rfl | ⟨mem, other⟩ | ⟨old, mem, same, rfl⟩)
        · exact .inl ⟨List.mem_cons_self, here⟩
        · exact .inl ⟨List.mem_cons_of_mem _ mem, other⟩
        · exact .inr ⟨old, List.mem_cons_of_mem _ mem, same, rfl⟩
      · rintro (⟨mem, other⟩ | ⟨old, mem, same, rfl⟩)
        · rcases List.mem_cons.1 mem with rfl | mem
          · exact .inl rfl
          · exact .inr (.inl ⟨mem, other⟩)
        · rcases List.mem_cons.1 mem with rfl | mem
          · exact absurd same here
          · exact .inr (.inr ⟨old, mem, same, rfl⟩)

end Refs

section Witness

variable {v : Views} {o e o' e' : Nat} {refs : List EntityRef}

/-- New references for one witness. -/
theorem Views.Sound.setRefs (sound : v.Sound) (nodup : (refs.map EntityRef.id).Nodup)
    (here : ∀ ref ∈ refs, ref.leavePending = false → ref.pEntity = some ref.id) : (v.setRefs o refs).Sound := by
  constructor
  · intro o'
    by_cases same : o' = o
    · simpa [Views.setRefs, same] using nodup
    · simpa [Views.setRefs, same] using sound.nodup o'
  · intro o'
    by_cases same : o' = o
    · simpa [Views.setRefs, same] using here
    · simpa [Views.setRefs, same] using sound.here o'

theorem live_setRefs (other : o' ≠ o) : (v.setRefs o refs).Live o' e' ↔ v.Live o' e' := by
  simp [Views.Live, Views.setRefs, other]

theorem live_setRefs_self : (v.setRefs o refs).Live o e' ↔
    ∃ ref ∈ refs, ref.id = e' ∧ ref.pEntity = some e' ∧ ref.leavePending = false := by
  simp [Views.Live, Views.setRefs]

/-- Changing the reference to one entity. -/
theorem Views.Sound.changeRef (sound : v.Sound) {f : EntityRef → EntityRef} (keeps : ∀ ref, (f ref).id = ref.id)
    (here : ∀ ref, (f ref).leavePending = false → (f ref).pEntity = some ref.id) :
    (v.setRefs o (Views.changeRef e f (v.aoiEntities o))).Sound := by
  apply sound.setRefs
  · rw [ids_changeRef fun ref _ => keeps ref]
    exact sound.nodup o
  · intro ref mem live
    rcases (mem_changeRef (sound.nodup o)).1 mem with ⟨mem, -⟩ | ⟨old, -, -, rfl⟩
    · exact sound.here o ref mem live
    · rw [keeps]
      exact here old live

theorem live_changeRef (sound : v.Sound) (f : EntityRef → EntityRef) (other : ¬ (o' = o ∧ e' = e))
    (keeps : ∀ ref, (f ref).id = ref.id) :
    (v.setRefs o (Views.changeRef e f (v.aoiEntities o))).Live o' e' ↔ v.Live o' e' := by
  by_cases witness : o' = o
  · subst witness
    have entity : e' ≠ e := fun same => other ⟨rfl, same⟩
    rw [live_setRefs_self]
    constructor
    · rintro ⟨ref, mem, id, live⟩
      rcases (mem_changeRef (sound.nodup o')).1 mem with ⟨mem, -⟩ | ⟨old, -, same, rfl⟩
      · exact ⟨ref, mem, id, live⟩
      · rw [keeps] at id
        exact absurd (id.symm.trans same) entity
    · rintro ⟨ref, mem, id, live⟩
      exact ⟨ref, (mem_changeRef (sound.nodup o')).2 (.inl ⟨mem, fun same => entity (id.symm.trans same)⟩), id, live⟩
  · exact live_setRefs witness

theorem find_ref {ref : EntityRef} (found : (v.aoiEntities o).find? (fun ref => ref.id = e) = some ref) :
    ref ∈ v.aoiEntities o ∧ ref.id = e :=
  ⟨List.mem_of_find?_eq_some found, by simpa using List.find?_some found⟩

theorem Views.Sound.onEnterAOI (sound : v.Sound) (kind : Kind) : (v.onEnterAOI o kind e).Sound := by
  unfold Views.onEnterAOI
  split_ifs
  · exact sound
  split
  · split_ifs
    · obtain ⟨nodup, here⟩ := sound.changeRef (o := o) (e := e) (f := EntityRef.revive) (fun _ => rfl) (fun _ _ => rfl)
      exact ⟨nodup, here⟩
    · exact sound
  · next missing =>
    have added : (v.setRefs o (v.aoiEntities o ++ [⟨e, some e, true, false, false⟩])).Sound := by
      apply sound.setRefs
      · rw [List.map_append, List.nodup_append]
        refine ⟨sound.nodup o, by simp, ?_⟩
        intro id mem id' mem'
        obtain ⟨ref, old, rfl⟩ := List.mem_map.1 mem
        have new := List.find?_eq_none.1 missing ref old
        simp only [List.map_cons, List.map_nil, List.mem_singleton] at mem'
        rw [mem']
        simpa using new
      · intro ref mem live
        rcases List.mem_append.1 mem with mem | mem
        · exact sound.here o ref mem live
        · rw [List.mem_singleton.1 mem]
    obtain ⟨nodup, here⟩ := added
    exact ⟨nodup, here⟩

theorem live_onEnterAOI (sound : v.Sound) (kind : Kind) :
    (v.onEnterAOI o kind e).Live o' e' ↔ v.Live o' e' ∨ kind = .aoi ∧ o' = o ∧ e' = e := by
  unfold Views.onEnterAOI
  split_ifs with hysteresis
  · simp [hysteresis]
  have kind' : kind = .aoi := by
    cases kind with
    | aoi => rfl
    | hysteresis => exact absurd rfl hysteresis
  by_cases pair : o' = o ∧ e' = e
  · obtain ⟨rfl, rfl⟩ := pair
    simp only [kind', true_and, or_true, iff_true]
    split
    · next ref found =>
      obtain ⟨mem, id⟩ := find_ref found
      split_ifs with leaving
      · refine ⟨ref.revive, ?_, id, by rw [← id]; rfl, rfl⟩
        simp only [Views.addWitnessed, Views.setRefs, Function.update_self]
        exact (mem_changeRef (sound.nodup o')).2 (.inr ⟨ref, mem, id, rfl⟩)
      · have live : ref.leavePending = false := by simpa using leaving
        exact ⟨ref, mem, id, by rw [sound.here o' ref mem live, id], live⟩
    · refine ⟨⟨e', some e', true, false, false⟩, ?_, rfl, rfl, rfl⟩
      simp [Views.addWitnessed, Views.setRefs]
  · simp only [pair, and_false, or_false]
    split
    · split_ifs
      · exact live_changeRef sound EntityRef.revive pair fun _ => rfl
      · rfl
    · by_cases witness : o' = o
      · subst witness
        have entity : e ≠ e' := fun same => pair ⟨rfl, same.symm⟩
        simp only [Views.Live, Views.addWitnessed, Views.setRefs, Function.update_self, List.mem_append, List.mem_singleton]
        constructor
        · rintro ⟨ref, mem | rfl, id, live⟩
          · exact ⟨ref, mem, id, live⟩
          · exact absurd id entity
        · rintro ⟨ref, mem, live⟩
          exact ⟨ref, .inl mem, live⟩
      · exact live_setRefs witness

theorem aoiEntities_leaveRef (ref : EntityRef) : (v.leaveRef o e ref).aoiEntities =
    (v.setRefs o (Views.changeRef e EntityRef.leave (v.aoiEntities o))).aoiEntities := by
  unfold Views.leaveRef
  cases ref.pEntity <;> rfl

theorem Views.Sound.onLeaveAOI (sound : v.Sound) (w : Witness) (kind : Kind) : (v.onLeaveAOI o w kind e).Sound := by
  unfold Views.onLeaveAOI
  split_ifs
  · exact sound
  split
  · obtain ⟨nodup, here⟩ := sound.changeRef (o := o) (e := e) (f := EntityRef.leave) (fun _ => rfl) nofun
    constructor
    · rw [aoiEntities_leaveRef]
      exact nodup
    · rw [aoiEntities_leaveRef]
      exact here
  · exact sound

theorem live_onLeaveAOI (sound : v.Sound) (w : Witness) (kind : Kind) :
    (v.onLeaveAOI o w kind e).Live o' e' ↔
      v.Live o' e' ∧ ¬ (¬ ((w.range .hysteresis).isSome ∧ kind ≠ .hysteresis) ∧ o' = o ∧ e' = e) := by
  unfold Views.onLeaveAOI
  split_ifs with ignored
  · simp only [ignored, ne_eq, not_false_eq_true, and_self, not_true_eq_false, false_and, and_true]
  by_cases pair : o' = o ∧ e' = e
  · obtain ⟨rfl, rfl⟩ := pair
    simp only [ignored, not_false_eq_true, true_and, not_true_eq_false, and_false, iff_false]
    split
    · unfold Views.Live
      rw [aoiEntities_leaveRef]
      rintro ⟨ref, mem, id, -, live⟩
      simp only [Views.setRefs, Function.update_self] at mem
      rcases (mem_changeRef (sound.nodup o')).1 mem with ⟨-, other⟩ | ⟨old, -, -, rfl⟩
      · exact other id
      · cases live
    · next missing =>
      rintro ⟨ref, mem, id, -⟩
      exact absurd id (by simpa using List.find?_eq_none.1 missing ref mem)
  · simp only [pair, and_false, not_false_eq_true, and_true]
    split
    · unfold Views.Live
      rw [aoiEntities_leaveRef]
      exact live_changeRef sound EntityRef.leave pair fun _ => rfl
    · rfl

end Witness

/-- The axes whose passes come first: z before y before x. -/
def Axis.above : Axis → List Axis
  | .x => [.y, .z]
  | .y => [.z]
  | .z => []

namespace Layout

/-- `n` was in the range of the trigger, as a pass in this direction sees it. -/
def Was (l : Layout) (b : Boundary) (n : Node) (isfront : Bool) : Prop := ∀ a, l.wasInRange b n isfront a = true

/-- `n` is in the range of the trigger. -/
def Is (l : Layout) (b : Boundary) (n : Node) : Prop := ∀ a, l.isInRange b n a = true

/-- `a` is the first axis on which being in range changes. -/
structure Turns (l : Layout) (b : Boundary) (n : Node) (isfront : Bool) (a : Axis) : Prop where
  turns : l.wasInRange b n isfront a ≠ l.isInRange b n a
  above : ∀ a' ∈ a.above, l.wasInRange b n isfront a' = l.isInRange b n a'

variable {l : Layout} {b : Boundary} {n : Node} {isfront : Bool} {a : Axis} {v : Views} {o e : Nat}

theorem forall_axis {p : Axis → Bool} : (∀ a, p a = true) ↔ (p .x && p .y && p .z) = true := by
  simp only [Bool.and_eq_true]
  constructor
  · intro all
    exact ⟨⟨all .x, all .y⟩, all .z⟩
  · rintro ⟨⟨x, y⟩, z⟩ a
    cases a with
    | x => exact x
    | y => exact y
    | z => exact z

theorem change_cases (l : Layout) (b : Boundary) (e : Nat) (isfront : Bool) (v : Views) :
    let was := l.wasInRange b (.entity e) isfront
    let is := l.isInRange b (.entity e)
    let v' := l.change b (.entity e) (was .x && was .y && was .z) (is .x && is .y && is .z) v
    v' = v ∨ l.Is b (.entity e) ∧ v' = v.onEnterAOI b.origin b.kind e ∨
      l.Was b (.entity e) isfront ∧ ¬ l.Is b (.entity e) ∧
        v' = v.onLeaveAOI b.origin (l.witness b.origin) b.kind e := by
  intro was is v'
  have was' : l.Was b (.entity e) isfront ↔ (was .x && was .y && was .z) = true := forall_axis
  have is' : l.Is b (.entity e) ↔ (is .x && is .y && is .z) = true := forall_axis
  rw [was', is']
  show l.change b (.entity e) (was .x && was .y && was .z) (is .x && is .y && is .z) v = v ∨ _ ∧ l.change _ _ _ _ _ = _ ∨
    _ ∧ _ ∧ l.change _ _ _ _ _ = _
  cases (was .x && was .y && was .z) <;> cases (is .x && is .y && is .z) <;> simp [change, Boundary.onEnter, onLeave]

/-- A boundary that an entity passes does nothing, or enters it where it is in range, or
leaves it where it was in range and is not. -/
theorem onNodePass_cases (l : Layout) (a : Axis) (b : Boundary) (e : Nat) (isfront : Bool) (v : Views) :
    l.onNodePass a (.boundary b) (.entity e) isfront v = v ∨
      l.Is b (.entity e) ∧ l.onNodePass a (.boundary b) (.entity e) isfront v = v.onEnterAOI b.origin b.kind e ∨
      l.Was b (.entity e) isfront ∧ ¬ l.Is b (.entity e) ∧
        l.onNodePass a (.boundary b) (.entity e) isfront v = v.onLeaveAOI b.origin (l.witness b.origin) b.kind e := by
  have cases' := change_cases l b e isfront v
  cases a with
  | x =>
    simp only [onNodePass, onNodePassX]
    split_ifs
    · exact .inl rfl
    · exact .inl rfl
    · exact .inl rfl
    · exact cases'
  | y =>
    simp only [onNodePass, onNodePassY]
    split_ifs
    · exact .inl rfl
    · exact .inl rfl
    · exact .inl rfl
    · exact cases'
  | z =>
    simp only [onNodePass, onNodePassZ]
    split_ifs
    · exact .inl rfl
    · exact .inl rfl
    · exact cases'

/-- On the first axis that changes the pass decides. -/
theorem onNodePass_turns (turns : l.Turns b (.entity e) isfront a) (other : e ≠ b.origin) (v : Views) :
    let was := l.wasInRange b (.entity e) isfront
    let is := l.isInRange b (.entity e)
    l.onNodePass a (.boundary b) (.entity e) isfront v =
      l.change b (.entity e) (was .x && was .y && was .z) (is .x && is .y && is .z) v := by
  obtain ⟨turns, above⟩ := turns
  have node : Node.entity e ≠ .entity b.origin := fun same => other (Node.entity.inj same)
  cases a with
  | x =>
    have y := above .y (by simp [Axis.above])
    have z := above .z (by simp [Axis.above])
    simp [onNodePass, onNodePassX, node, y, z]
  | y =>
    have z := above .z (by simp [Axis.above])
    simp [onNodePass, onNodePassY, node, z, turns]
  | z => simp [onNodePass, onNodePassZ, node, turns]

theorem onNodePass_enters (turns : l.Turns b (.entity e) isfront a) (other : e ≠ b.origin)
    (out : ¬ l.Was b (.entity e) isfront) (is : l.Is b (.entity e)) (v : Views) :
    l.onNodePass a (.boundary b) (.entity e) isfront v = v.onEnterAOI b.origin b.kind e := by
  rw [Was, forall_axis, Bool.not_eq_true] at out
  rw [Is, forall_axis] at is
  rw [onNodePass_turns turns other]
  simp [change, out, is, Boundary.onEnter]

theorem onNodePass_leaves (turns : l.Turns b (.entity e) isfront a) (other : e ≠ b.origin)
    (was : l.Was b (.entity e) isfront) (out : ¬ l.Is b (.entity e)) (v : Views) :
    l.onNodePass a (.boundary b) (.entity e) isfront v = v.onLeaveAOI b.origin (l.witness b.origin) b.kind e := by
  rw [Was, forall_axis] at was
  rw [Is, forall_axis, Bool.not_eq_true] at out
  rw [onNodePass_turns turns other]
  simp [change, out, was, onLeave]

/-- A pass concerns one boundary and one entity, or does nothing. -/
theorem pass_cases (l : Layout) (a : Axis) (n c : Node) (up : Bool) (v : Views) :
    l.pass a n c up v = v ∨ ∃ b e isfront, (n = .entity e ∧ c = .boundary b ∨ n = .boundary b ∧ c = .entity e) ∧
      l.pass a n c up v = l.onNodePass a (.boundary b) (.entity e) isfront v := by
  cases n with
  | entity e =>
    cases c with
    | entity e' => exact .inl rfl
    | boundary b => exact .inr ⟨b, e, up, .inl ⟨rfl, rfl⟩, rfl⟩
  | boundary b =>
    cases c with
    | entity e => exact .inr ⟨b, e, !up, .inr ⟨rfl, rfl⟩, rfl⟩
    | boundary b' => exact .inl rfl

/-- Where the node `n` moves, `o` does not leave `e`: if it was in the hysteresis area it is. -/
def Stays (l : Layout) (n : Node) (o e : Nat) : Prop :=
  ∀ b, b.origin = o → b.kind = .hysteresis → n = .entity e ∨ n = .boundary b →
    ∀ isfront, l.Was b (.entity e) isfront → l.Is b (.entity e)

/-- Where the node `n` moves, `o` does not enter `e`: it is not in the AOI. -/
def Away (l : Layout) (n : Node) (o e : Nat) : Prop :=
  ∀ b, b.origin = o → b.kind = .aoi → n = .entity e ∨ n = .boundary b → ¬ l.Is b (.entity e)

/-- The witness of `o` has a hysteresis area. -/
def Area (l : Layout) (o : Nat) : Prop := ((l.witness o).range .hysteresis).isSome = true

theorem sound_pass (sound : v.Sound) (l : Layout) (a : Axis) (n c : Node) (up : Bool) : (l.pass a n c up v).Sound := by
  rcases pass_cases l a n c up v with same | ⟨b, e, isfront, -, same⟩
  · rw [same]
    exact sound
  · rw [same]
    rcases onNodePass_cases l a b e isfront v with same | ⟨-, same⟩ | ⟨-, -, same⟩
    · rw [same]
      exact sound
    · rw [same]
      exact sound.onEnterAOI b.kind
    · rw [same]
      exact sound.onLeaveAOI _ b.kind

theorem pass_live {n c : Node} {up : Bool} (stays : l.Stays n o e) (area : l.Area o) (sound : v.Sound) (live : v.Live o e) :
    (l.pass a n c up v).Live o e := by
  rcases pass_cases l a n c up v with same | ⟨b, e', isfront, pair, same⟩
  · rw [same]
    exact live
  rw [same]
  rcases onNodePass_cases l a b e' isfront v with same | ⟨-, same⟩ | ⟨was, out, same⟩
  · rw [same]
    exact live
  · rw [same, live_onEnterAOI sound]
    exact .inl live
  · rw [same, live_onLeaveAOI sound]
    refine ⟨live, ?_⟩
    rintro ⟨acts, rfl, rfl⟩
    apply out
    apply stays b rfl ?_ (pair.imp And.left And.left) isfront was
    by_contra kind
    exact acts ⟨area, kind⟩

/-- A live reference is old, or a boundary has just seen its entity in range. -/
theorem pass_old_or {n c : Node} {up : Bool} (sound : v.Sound) (live : (l.pass a n c up v).Live o e) :
    v.Live o e ∨ ∃ b, b.origin = o ∧ b.kind = .aoi ∧ l.Is b (.entity e) ∧
      (n = .entity e ∧ c = .boundary b ∨ n = .boundary b ∧ c = .entity e) := by
  rcases pass_cases l a n c up v with same | ⟨b, e', isfront, pair, same⟩
  · rw [same] at live
    exact .inl live
  rw [same] at live
  rcases onNodePass_cases l a b e' isfront v with same | ⟨is, same⟩ | ⟨-, -, same⟩
  · rw [same] at live
    exact .inl live
  · rw [same, live_onEnterAOI sound] at live
    rcases live with live | ⟨kind, rfl, rfl⟩
    · exact .inl live
    · exact .inr ⟨b, rfl, kind, is, pair⟩
  · rw [same, live_onLeaveAOI sound] at live
    exact .inl live.1

theorem pass_dead {n c : Node} {up : Bool} (away : l.Away n o e) (sound : v.Sound) (live : (l.pass a n c up v).Live o e) :
    v.Live o e := by
  rcases pass_old_or sound live with live | ⟨b, origin, kind, is, pair⟩
  · exact live
  · exact absurd is (away b origin kind (pair.imp And.left And.left))

end Layout

end GameServer.Aoi

import GameServer.Aoi.Entering

/-!
# The views match the distances

A new entity is first put in the lists, where the boundaries it passes see it come in
(`Inv.entered`), and then gets its two triggers (`Inv.add`). With `Inv.move` this makes `Inv`
an invariant of all runs in which no entity ever comes to stand exactly on a boundary of
another (`aoi_matches`).

On a boundary the lists and the range tests disagree: a node is passed only where the order
is strict, and a range includes its ends. An entity that enters the space on the negative
boundary of another passes it on no axis, and one that leaves along another
axis is taken for one that was outside (`aoi_tie`).
-/

namespace GameServer.Aoi

open GameServer.Lib

/-- After `insert`: the new entity `id` has no triggers yet. -/
structure Entered (s : Space) (id : Nat) (pos : Axis → ℚ) (w : Witness) (t : Space) : Prop where
  settled : Settled t fun n => n = .entity id ∨ s.Has n.owner
  position : t.layout.position = Function.update s.layout.position id pos
  witness : t.layout.witness = Function.update s.layout.witness id w
  range : t.layout.range = s.layout.range
  watcherNodes : t.watcherNodes = s.watcherNodes
  sound : t.views.Sound
  live : ∀ o e, t.views.Live o e → s.Has o ∧ (e = id ∨ s.Has e)
  others : ∀ o e, s.Has o → e ≠ id → (t.views.Live o e ↔ s.views.Live o e)
  seen : ∀ o, s.Has o → Near (s.layout.witness o).aoiRadius (s.layout.position o) pos → t.views.Live o id
  unseen : ∀ o, s.Has o → ¬ Near (s.layout.witness o).aoiRadius (s.layout.position o) pos → ¬ t.views.Live o id

section Add

variable {s t : Space} {id : Nat} {pos : Axis → ℚ} {w : Witness} {b : Boundary}

theorem Inv.newEntity (inv : Inv s) (absent : ¬ s.Has id) (pos : Axis → ℚ) (w : Witness) :
    Settled (s.newEntity id pos w) fun n => s.Has n.owner := by
  have other : ∀ o, s.Has o → o ≠ id := fun o here same => absent (same ▸ here)
  have xx : ∀ n a, s.Has n.owner → (s.newEntity id pos w).layout.xx n a = s.layout.xx n a :=
    fun n a here => xx_update_of_ne (other _ here) rfl rfl
  refine ⟨⟨⟨inv.nodup, inv.mem, inv.sorted⟩, ?_, ?_, inv.oldRange⟩, ?_⟩
  · intro n a here
    rw [xx n a here]
    exact inv.coord n a here
  · intro n a here
    rw [xx n a here]
    exact inv.old n a here
  · intro o here
    show InWorld (Function.update s.layout.position id pos o)
    rw [Function.update_of_ne (other o here)]
    exact inv.world o here

/-- No boundary has seen the new entity before. -/
theorem Inv.unseen_new (inv : Inv s) (here : s.Has b.origin) (isfront : Bool) (a : Axis) :
    ((s.newEntity id pos w).head (.entity id)).layout.wasInRange b (.entity id) isfront a = false := by
  have old : ((s.newEntity id pos w).head (.entity id)).layout.old (.entity id) a = -FLT_MAX := by
    show Function.update s.layout.old (.entity id) (fun _ => -FLT_MAX) (.entity id) a = _
    rw [Function.update_self]
  have center : ((s.newEntity id pos w).head (.entity id)).layout.old (.boundary b) a -
      ((s.newEntity id pos w).head (.entity id)).layout.oldRange b a = s.layout.position b.origin a := by
    show s.layout.old (.boundary b) a - s.layout.oldRange b a = _
    rw [inv.old (.boundary b) a here, inv.oldRange b here]
    exact add_sub_cancel_right _ _
  have range : |((s.newEntity id pos w).head (.entity id)).layout.oldRange b a| =
      (s.layout.witness b.origin).reach b.kind := by
    show |s.layout.oldRange b a| = _
    rw [inv.oldRange b here, inv.abs_range here]
  have far : (s.layout.witness b.origin).reach b.kind < |-FLT_MAX - s.layout.position b.origin a| := by
    obtain ⟨low, -⟩ := (inv.world b.origin here).bounds a
    have bound := (inv.good b.origin here).reach_le b.kind
    exact lt_abs.2 (.inr (by linarith))
  rw [← range, ← old] at far
  rw [Bool.eq_false_iff, ne_eq, Layout.wasInRange_iff center (ne_of_gt far)]
  exact not_le.2 far

theorem Inv.is_new (inv : Inv s) (absent : ¬ s.Has id) (here : s.Has b.origin) :
    ((s.newEntity id pos w).head (.entity id)).layout.Is b (.entity id) ↔
      Near ((s.layout.witness b.origin).reach b.kind) (s.layout.position b.origin) pos := by
  have other : b.origin ≠ id := fun same => absent (same ▸ here)
  refine forall_congr' fun a => ?_
  rw [Layout.isInRange_iff]
  show |Function.update s.layout.position id pos id a - Function.update s.layout.position id pos b.origin a| ≤
    |s.layout.range b a| ↔ _
  rw [Function.update_self, Function.update_of_ne other, inv.abs_range here]

/-- A new entity passes the negative boundaries of the entities that see it. -/
theorem Inv.enters_new (inv : Inv s) (absent : ¬ s.Has id) {o : Nat} (here : s.Has o)
    (near : Near (s.layout.witness o).aoiRadius (s.layout.position o) pos)
    (untied : |pos .z - s.layout.position o .z| ≠ (s.layout.witness o).aoiRadius)
    (updated : Updated (.entity id) ((s.newEntity id pos w).head (.entity id)) t) : t.views.Live o id := by
  have other : o ≠ id := fun same => absent (same ▸ here)
  have inside : |pos .z - s.layout.position o .z| < (s.layout.witness o).aoiRadius := lt_of_le_of_ne (near .z) untied
  have is := (inv.is_new (b := ⟨o, .aoi, .negative⟩) (w := w) absent here).2 near
  have node : Node.boundary ⟨o, .aoi, .negative⟩ ≠ .entity id := nofun
  refine updated.enters (b := ⟨o, .aoi, .negative⟩) (a := .z) (.inl ⟨rfl, rfl⟩) (.inl ⟨?_, ?_⟩) ?_ other.symm rfl ?_ is ?_ ?_
    inv.sound
  · exact before_cons ((inv.mem .z (.boundary ⟨o, .aoi, .negative⟩)).2 here)
  · rw [coord_head node, xx_head]
    show s.coord (.boundary ⟨o, .aoi, .negative⟩) .z < Function.update s.layout.position id pos id .z
    rw [Function.update_self, inv.coord (.boundary ⟨o, .aoi, .negative⟩) _ here]
    show s.layout.position o .z + s.layout.range ⟨o, .aoi, .negative⟩ .z < pos .z
    rw [inv.range ⟨o, .aoi, .negative⟩ .z here]
    show s.layout.position o .z + -1 * (s.layout.witness o).aoiRadius < pos .z
    have low := (abs_lt.1 inside).1
    linarith
  · intro isfront
    constructor
    · rw [inv.unseen_new here isfront .z, is .z]
      exact Bool.false_ne_true
    · nofun
  · intro isfront was
    exact absurd (was .x) (by rw [inv.unseen_new here isfront .x]; exact Bool.false_ne_true)
  · rintro b rfl - - isfront was
    exact absurd (was .x) (by rw [inv.unseen_new here isfront .x]; exact Bool.false_ne_true)
  · show ((Function.update s.layout.witness id w o).range .hysteresis).isSome = true
    rw [Function.update_of_ne other, (inv.good o here).range]
    rfl

theorem Inv.entered (inv : Inv s) (absent : ¬ s.Has id) (world : InWorld pos)
    (apart : ∀ o, s.Has o → Apart (s.layout.witness o) (s.layout.position o) pos) :
    ∃ t, (s.newEntity id pos w).insert (.entity id) = some t ∧ Entered s id pos w t := by
  have other : ∀ o, s.Has o → o ≠ id := fun o here same => absent (same ▸ here)
  have place : ∀ a, (s.newEntity id pos w).layout.xx (.entity id) a = pos a := by
    intro a
    show Function.update s.layout.position id pos id a = pos a
    rw [Function.update_self]
  obtain ⟨t, run, updated, steady⟩ := (inv.newEntity absent pos w).toSteady.insert (n := .entity id) absent (by
    intro a same
    rw [place] at same
    obtain ⟨low, -⟩ := world.bounds a
    linarith)
  have position : t.layout.position = Function.update s.layout.position id pos := updated.position
  have owned : ∀ a c, c ∈ ((s.newEntity id pos w).head (.entity id)).list a → c = .entity id ∨ s.Has c.owner := by
    intro a c mem
    rcases List.mem_cons.1 mem with same | mem
    · exact .inl same
    · exact .inr ((inv.mem a c).1 mem)
  have live : ∀ o e, t.views.Live o e → s.Has o ∧ (e = id ∨ s.Has e) := by
    intro o e live
    rcases updated.present owned (.inl rfl) inv.sound live with old | ⟨entity, b, rfl, boundary⟩
    · obtain ⟨left, right⟩ := inv.live o e old
      exact ⟨left, .inr right⟩
    · exact ⟨boundary.resolve_left nofun, entity.imp Node.entity.inj fun here => here⟩
  refine ⟨t, run, ⟨steady, ?_⟩, position, updated.witness, updated.range, updated.watcherNodes, updated.sound inv.sound, live,
    ?_, ?_, ?_⟩
  · rintro e (node | here)
    · rw [Node.entity.inj node, position, Function.update_self]
      exact world
    · rw [position, Function.update_of_ne (other e here)]
      exact inv.world e here
  · intro o e here old
    have node : Node.entity id ≠ .entity e := fun same => old (Node.entity.inj same).symm
    constructor
    · intro live
      by_contra dead
      refine updated.dead ?_ inv.sound dead live
      rintro b - - (same | same)
      · exact absurd same node
      · cases same
    · intro live
      refine updated.live ?_ ?_ inv.sound live
      · rintro b - - (same | same)
        · exact absurd same node
        · cases same
      · show ((Function.update s.layout.witness id w o).range .hysteresis).isSome = true
        rw [Function.update_of_ne (other o here), (inv.good o here).range]
        rfl
  · intro o here near
    exact inv.enters_new absent here near (apart o here .aoi .z) updated
  · intro o here far
    refine updated.dead ?_ inv.sound fun old => absent (inv.live o id old).2
    rintro b rfl kind - is
    rw [inv.is_new absent here, kind] at is
    exact far is

/-- The nodes in the lists after the installation of both triggers. -/
theorem installed_iff (H : Nat → Prop) (n : Node) :
    (n = .boundary ⟨id, .aoi, .negative⟩ ∨ n = .boundary ⟨id, .aoi, .positive⟩ ∨ n = .boundary ⟨id, .hysteresis, .negative⟩ ∨
      n = .boundary ⟨id, .hysteresis, .positive⟩ ∨ n = .entity id ∨ H n.owner) ↔ n.owner = id ∨ H n.owner := by
  rw [← mem_nodes]
  simp only [nodes, boundaries, List.map_cons, List.map_nil, List.mem_cons, List.not_mem_nil, or_false]
  tauto

/-- The new entity `id` with both its triggers. -/
structure Added (s : Space) (id : Nat) (pos : Axis → ℚ) (w : Witness) (t : Space) : Prop where
  settled : Settled t fun n => n.owner = id ∨ s.Has n.owner
  position : t.layout.position = Function.update s.layout.position id pos
  witness : t.layout.witness = Function.update s.layout.witness id w
  ranges : ∀ kind side, t.layout.range ⟨id, kind, side⟩ = fun _ => side.sign * w.reach kind
  others : ∀ b, b.origin ≠ id → t.layout.range b = s.layout.range b
  watcherNodes : t.watcherNodes = Function.update s.watcherNodes id (boundaries id)
  sound : t.views.Sound
  live : ∀ o e, t.views.Live o e → (o = id ∨ s.Has o) ∧ (e = id ∨ s.Has e)
  old : ∀ o e, s.Has o → s.Has e → (t.views.Live o e ↔ s.views.Live o e)
  new : ∀ o, s.Has o → (t.views.Live o id ↔ Near (s.layout.witness o).aoiRadius (s.layout.position o) pos)
  own : ∀ e, s.Has e → (t.views.Live id e ↔ Near w.aoiRadius pos (s.layout.position e))

theorem Inv.added (inv : Inv s) (absent : ¬ s.Has id) (good : w.Good) (world : InWorld pos)
    (apart : ∀ o, s.Has o → Apart (s.layout.witness o) (s.layout.position o) pos ∧ Apart w pos (s.layout.position o)) :
    ∃ t, (s.newEntity id pos w).addEntityAndEnterWorld id = some t ∧ Added s id pos w t := by
  have other : ∀ o, s.Has o → o ≠ id := fun o here same => absent (same ▸ here)
  obtain ⟨t₁, run₁, entered⟩ := inv.entered (w := w) absent world fun o here => (apart o here).1
  have owned : ∀ c : Node, c = .entity id ∨ s.Has c.owner → c.owner = id ∨ s.Has c.owner := by
    rintro c (rfl | here)
    · exact .inl rfl
    · exact .inr here
  have new₁ : ∀ side, ¬ (Node.boundary ⟨id, .hysteresis, side⟩ = .entity id ∨ s.Has id) := by
    rintro side (node | here)
    · cases node
    · exact absent here
  obtain ⟨t₂, run₂, hyst⟩ := install_spec (H := fun o => o = id ∨ s.Has o) entered.settled (.inl rfl) new₁
    (good.reach_pos .hysteresis) (good.reach_le .hysteresis) owned
  have new₂ : ∀ side, ¬ (Node.boundary ⟨id, .aoi, side⟩ = .boundary ⟨id, .hysteresis, .negative⟩ ∨
      Node.boundary ⟨id, .aoi, side⟩ = .boundary ⟨id, .hysteresis, .positive⟩ ∨
      Node.boundary ⟨id, .aoi, side⟩ = .entity id ∨ s.Has id) := by
    rintro side (node | node | node | here)
    · cases node
    · cases node
    · cases node
    · exact absent here
  have owned₂ : ∀ c : Node, c = .boundary ⟨id, .hysteresis, .negative⟩ ∨ c = .boundary ⟨id, .hysteresis, .positive⟩ ∨
      c = .entity id ∨ s.Has c.owner → c.owner = id ∨ s.Has c.owner := by
    rintro c (rfl | rfl | here)
    · exact .inl rfl
    · exact .inl rfl
    · exact owned c here
  obtain ⟨t₃, run₃, aoi⟩ := install_spec (H := fun o => o = id ∨ s.Has o) hyst.settled (.inr (.inr (.inl rfl))) new₂
    (good.reach_pos .aoi) (good.reach_le .aoi) owned₂
  have witness₁ : t₁.layout.witness id = w := by rw [entered.witness, Function.update_self]
  have place : ∀ o, s.Has o → t₁.layout.position o = s.layout.position o := by
    intro o here
    rw [entered.position, Function.update_of_ne (other o here)]
  have place' : t₁.layout.position id = pos := by rw [entered.position, Function.update_self]
  have sound₂ := hyst.quiet.sound entered.sound
  have area : ∀ o, o = id ∨ s.Has o → t₁.layout.Area o := by
    rintro o (rfl | here)
    · rw [Layout.Area, witness₁, good.range]
      rfl
    · rw [Layout.Area, entered.witness, Function.update_of_ne (other o here), (inv.good o here).range]
      rfl
  have area₂ : ∀ o, o = id ∨ s.Has o → t₂.layout.Area o := by
    intro o here
    rw [Layout.Area, hyst.quiet.witness]
    exact area o here
  -- the installation changes nothing for the entities that were there
  have kept : ∀ o e, s.Has o → e = id ∨ s.Has e → (t₃.views.Live o e ↔ t₁.views.Live o e) := by
    intro o e here there
    have entity : Node.entity e = .entity id ∨ s.Has e := there.imp_left fun same => congrArg _ same
    constructor
    · intro live
      by_contra dead
      refine aoi.quiet.dead o e (fun same => absurd same (other o here)) sound₂ ?_ live
      exact hyst.quiet.dead o e (fun same => absurd same (other o here)) entered.sound dead
    · intro live
      refine aoi.quiet.live o e (area₂ o (.inr here)) (.inr (.inr entity)) sound₂ ?_
      exact hyst.quiet.live o e (area o (.inr here)) entity entered.sound live
  refine ⟨t₃, ?_, ⟨⟨⟨aoi.settled.nodup, ?_, aoi.settled.sorted⟩, ?_, ?_, ?_⟩, ?_⟩, ?_, ?_, ?_, ?_, ?_, ?_, ?_, ?_, ?_, ?_⟩
  · have range := good.range
    simp only [Space.addEntityAndEnterWorld, run₁, Option.bind_eq_bind, Option.bind_some, Space.installAOITrigger, witness₁,
      range, if_neg (not_le.2 good.radius), run₂]
    exact run₃
  · intro a n
    rw [aoi.settled.mem, installed_iff]
  · intro n a here
    exact aoi.settled.coord n a ((installed_iff s.Has n).2 here)
  · intro n a here
    exact aoi.settled.old n a ((installed_iff s.Has n).2 here)
  · intro b here
    exact aoi.settled.oldRange b ((installed_iff s.Has (.boundary b)).2 here)
  · intro e here
    exact aoi.settled.world e ((installed_iff s.Has (.entity e)).2 here)
  · rw [aoi.quiet.position, hyst.quiet.position, entered.position]
  · rw [aoi.quiet.witness, hyst.quiet.witness, entered.witness]
  · intro kind side
    cases kind with
    | aoi => exact aoi.ranges side
    | hysteresis =>
      rw [aoi.others _ (by simp)]
      exact hyst.ranges side
  · intro b differ
    have apart : ∀ kind side, b ≠ ⟨id, kind, side⟩ := fun kind side same => differ (same ▸ rfl)
    rw [aoi.others b (apart .aoi), hyst.others b (apart .hysteresis), entered.range]
  · rw [aoi.watcherNodes, hyst.watcherNodes, entered.watcherNodes, Function.update_self, Function.update_idem,
      inv.absent id absent]
    rfl
  · exact aoi.quiet.sound sound₂
  · apply aoi.quiet.present sound₂
    apply hyst.quiet.present entered.sound
    intro o e live
    obtain ⟨left, right⟩ := entered.live o e live
    exact ⟨.inr left, right⟩
  · intro o e here there
    rw [kept o e here (.inr there), entered.others o e here (other e there)]
  · intro o here
    rw [kept o id here (.inl rfl)]
    constructor
    · intro live
      by_contra far
      exact entered.unseen o here far live
    · exact entered.seen o here
  · intro e there
    have dead : ¬ t₂.views.Live id e :=
      hyst.quiet.dead id e (by simp) entered.sound fun live => absent (entered.live id e live).1
    have near : Near (w.reach .aoi) (t₂.layout.position id) (t₂.layout.position e) ↔ Near w.aoiRadius pos (s.layout.position e) := by
      rw [hyst.quiet.position, place', place e there]
      rfl
    constructor
    · intro live
      by_contra far
      exact aoi.quiet.dead id e (fun _ _ close => far (near.1 close)) sound₂ dead live
    · intro close
      refine aoi.enters rfl e (other e there) (.inr (.inr (.inr there))) (near.2 close) ?_ (area₂ id (.inl rfl)) sound₂
      rw [hyst.quiet.position, place', place e there]
      exact (apart e there).2 .aoi .z

/-- **A new entity** keeps the invariant. -/
theorem Inv.add (inv : Inv s) (absent : ¬ s.Has id) (good : w.Good) (world : InWorld pos)
    (apart : ∀ o, s.Has o → Apart (s.layout.witness o) (s.layout.position o) pos ∧ Apart w pos (s.layout.position o)) :
    ∃ t, (s.newEntity id pos w).addEntityAndEnterWorld id = some t ∧ Inv t := by
  obtain ⟨t, run, added⟩ := inv.added absent good world apart
  have other : ∀ o, s.Has o → o ≠ id := fun o here same => absent (same ▸ here)
  have has : ∀ o, t.Has o ↔ o = id ∨ s.Has o := fun o => added.settled.mem .x (.entity o)
  have place : ∀ o, s.Has o → t.layout.position o = s.layout.position o := by
    intro o here
    rw [added.position, Function.update_of_ne (other o here)]
  have sight : ∀ o, s.Has o → t.layout.witness o = s.layout.witness o := by
    intro o here
    rw [added.witness, Function.update_of_ne (other o here)]
  have place' : t.layout.position id = pos := by rw [added.position, Function.update_self]
  have sight' : t.layout.witness id = w := by rw [added.witness, Function.update_self]
  refine ⟨t, run, ?_⟩
  constructor
  · refine ⟨⟨added.settled.nodup, ?_, added.settled.sorted⟩, ?_, ?_, ?_⟩
    · intro a n
      rw [has]
      exact added.settled.mem a n
    · intro n a here
      exact added.settled.coord n a ((has _).1 here)
    · intro n a here
      exact added.settled.old n a ((has _).1 here)
    · intro b here
      exact added.settled.oldRange b ((has _).1 here)
  · intro o here
    rcases (has o).1 here with rfl | here
    · rw [sight']
      exact good
    · rw [sight o here]
      exact inv.good o here
  · rintro ⟨o, kind, side⟩ a here
    rcases (has o).1 here with rfl | here
    · rw [added.ranges, sight']
    · rw [added.others _ (other o here), sight o here]
      exact inv.range ⟨o, kind, side⟩ a here
  · intro o here
    exact added.settled.world o ((has o).1 here)
  · intro o e here there differ
    rcases (has o).1 here with rfl | here
    · have there := ((has e).1 there).resolve_left differ.symm
      rw [sight', place', place e there]
      exact (apart e there).2
    · rw [sight o here, place o here]
      rcases (has e).1 there with rfl | there
      · rw [place']
        exact (apart o here).1
      · rw [place e there]
        exact inv.apart o e here there differ
  · intro o here
    rw [added.watcherNodes]
    rcases (has o).1 here with rfl | here
    · rw [Function.update_self]
    · rw [Function.update_of_ne (other o here)]
      exact inv.watchers o here
  · intro o gone
    rw [has, not_or] at gone
    rw [added.watcherNodes, Function.update_of_ne gone.1]
    exact inv.absent o gone.2
  · exact added.sound
  · intro o e live
    rw [has, has]
    exact added.live o e live
  · intro o e here there differ
    rcases (has o).1 here with rfl | here
    · have there := ((has e).1 there).resolve_left differ.symm
      constructor
      · rw [sight', place', place e there]
        exact (added.own e there).2
      · rw [sight', place', place e there]
        exact fun far live => far (((added.own e there).1 live).mono good.aoi_le)
    · rcases (has e).1 there with rfl | there
      · constructor
        · rw [sight o here, place o here, place']
          exact (added.new o here).2
        · rw [sight o here, place o here, place']
          exact fun far live => far (((added.new o here).1 live).mono (inv.good o here).aoi_le)
      · obtain ⟨seen, unseen⟩ := inv.views o e here there differ
        constructor
        · rw [sight o here, place o here, place e there, added.old o e here there]
          exact seen
        · rw [sight o here, place o here, place e there, added.old o e here there]
          exact unseen

end Add

/-- Where `id` comes to stand at `pos`, with the witness `w`, nobody is on a boundary of anybody. -/
def Clear (s : Space) (id : Nat) (w : Witness) (pos : Axis → ℚ) : Prop :=
  InWorld pos ∧ ∀ o, s.Has o → o ≠ id → Apart (s.layout.witness o) (s.layout.position o) pos ∧ Apart w pos (s.layout.position o)

/-- New ids, radii that `setAoiRadius` takes over, and clear places. -/
def Ok (s : Space) : Action → Prop
  | .add id pos radius hyst =>
    ¬ s.Has id ∧ 0 < radius ∧ 0 ≤ hyst ∧ radius + hyst ≤ 512 ∧ Clear s id (newWitness radius hyst) pos
  | .move id pos => s.Has id ∧ Clear s id (s.layout.witness id) (moved (s.layout.position id) pos)

section Runs

variable {s t : Space} {as : List Action} {action : Action}

theorem inv_empty : Inv empty := by
  have absent : ∀ o, ¬ empty.Has o := fun o mem => nomatch mem
  constructor
  · refine ⟨⟨fun a => .nil, ?_, fun a => .nil⟩, ?_, ?_, ?_⟩
    · exact fun a n => ⟨nofun, fun here => absurd here (absent _)⟩
    · exact fun n a here => absurd here (absent _)
    · exact fun n a here => absurd here (absent _)
    · exact fun b here => absurd here (absent _)
  · exact fun o here => absurd here (absent o)
  · exact fun b a here => absurd here (absent _)
  · exact fun o here => absurd here (absent o)
  · exact fun o e here => absurd here (absent o)
  · exact fun o here => absurd here (absent o)
  · exact fun o _ => rfl
  · exact ⟨fun o => .nil, fun o ref mem => nomatch mem⟩
  · rintro o e ⟨ref, mem, -⟩
    cases mem
  · exact fun o e here => absurd here (absent o)

/-- A step that meets the condition is taken, and keeps the invariant. -/
theorem Inv.keeps (inv : Inv s) (ok : Ok s action) : ∃ t, step s action = some t ∧ Inv t := by
  cases action with
  | add id pos radius hyst =>
    obtain ⟨absent, positive, nonneg, bound, world, apart⟩ := ok
    obtain ⟨t, run, inv'⟩ := inv.add absent (newWitness_good positive nonneg bound).1 world
      fun o here => apart o here fun same => absent (same ▸ here)
    exact ⟨t, (if_neg absent).trans run, inv'⟩
  | move id pos =>
    obtain ⟨here, world, apart⟩ := ok
    obtain ⟨t, run, inv'⟩ := inv.move here world (by
      intro o e left right differ
      by_cases first : o = id
      · subst first
        rw [Function.update_self, Function.update_of_ne differ.symm]
        exact (apart e right differ.symm).2
      · rw [Function.update_of_ne first]
        by_cases second : e = id
        · subst second
          rw [Function.update_self]
          exact (apart o left first).1
        · rw [Function.update_of_ne second]
          exact inv.apart o e left right differ)
    exact ⟨t, (if_pos here).trans run, inv'⟩

theorem inv_of_runs (run : Runs step Ok empty as s) : Inv s := by
  refine run.invariant Inv inv_empty ?_
  intro t action u inv ok next
  obtain ⟨u', next', inv'⟩ := inv.keeps ok
  obtain rfl := Option.some.inj (next.symm.trans next')
  exact inv'

/-- **The views match the distances** after every run in which no entity comes to stand on a
boundary of another: who is no farther than the radius on every axis is seen, who is farther
than radius and hysteresis on some axis is not; and every such operation comes to its end. -/
theorem aoi_matches (run : Runs step Ok empty as s) :
    (∀ action, Ok s action → ∃ t, step s action = some t) ∧
    ∀ o e, s.Has o → s.Has e → o ≠ e →
      ((∀ a, |s.layout.position e a - s.layout.position o a| ≤ (s.layout.witness o).aoiRadius) → s.views.Live o e) ∧
      ((∃ a, (s.layout.witness o).aoiRadius + (s.layout.witness o).aoiHysteresisArea <
        |s.layout.position e a - s.layout.position o a|) → ¬ s.views.Live o e) := by
  have inv := inv_of_runs run
  constructor
  · intro action ok
    obtain ⟨t, next, -⟩ := inv.keeps ok
    exact ⟨t, next⟩
  · intro o e here there differ
    obtain ⟨seen, unseen⟩ := inv.views o e here there differ
    refine ⟨seen, ?_⟩
    rintro ⟨a, far⟩
    exact unseen fun near => not_lt.2 (near a) far

end Runs

section Tests

instance (s : Space) {p : Nat → Prop} [∀ o, Decidable (p o)] : Decidable (∀ o, s.Has o → p o) :=
  decidable_of_iff (∀ n ∈ s.list .x, ∀ o ∈ [n.owner], n = .entity o → p o)
    ⟨fun all o here => all (.entity o) here o List.mem_cons_self rfl, fun all n mem o _ same => all o (by rw [same] at mem; exact mem)⟩

instance (s : Space) (o : Nat) : Decidable (s.Has o) := inferInstanceAs (Decidable (_ ∈ s.list .x))

instance (v : Views) (o e : Nat) : Decidable (v.Live o e) := inferInstanceAs (Decidable (∃ ref ∈ v.aoiEntities o, _))

instance (w : Witness) (p q : Axis → ℚ) : Decidable (Apart w p q) := inferInstanceAs (Decidable (∀ _ _, _))

instance (p : Axis → ℚ) : Decidable (InWorld p) := inferInstanceAs (Decidable (∀ _, _))

instance (s : Space) (id : Nat) (w : Witness) (pos : Axis → ℚ) : Decidable (Clear s id w pos) :=
  inferInstanceAs (Decidable (_ ∧ ∀ o, s.Has o → o ≠ id → _ ∧ _))

instance (s : Space) : (action : Action) → Decidable (Ok s action)
  | .add _ _ _ _ => inferInstanceAs (Decidable (_ ∧ _ ∧ _ ∧ _ ∧ _))
  | .move _ _ => inferInstanceAs (Decidable (_ ∧ _))

/-- A point with these coordinates. -/
def point (x y z : ℚ) : Axis → ℚ
  | .x => x
  | .y => y
  | .z => z

/-- Another entity enters next to the first one, and then goes away. -/
def visit : List Action := [.add 0 (point 0 0 0) 5 1, .add 1 (point 1 2 3) 5 1]

theorem aoi_matches_visit : ∃ s t, Runs step Ok empty visit s ∧ s.views.Live 0 1 ∧ s.views.Live 1 0 ∧
    Runs step Ok empty (visit ++ [.move 1 (point 1 20 3)]) t ∧ ¬ t.views.Live 0 1 := by
  obtain ⟨s, run, zero, one, near, near'⟩ : ∃ s, Runs step Ok empty visit s ∧ s.Has 0 ∧ s.Has 1 ∧
      (∀ a, |s.layout.position 1 a - s.layout.position 0 a| ≤ (s.layout.witness 0).aoiRadius) ∧
      ∀ a, |s.layout.position 0 a - s.layout.position 1 a| ≤ (s.layout.witness 1).aoiRadius := by
    apply Runs.exists_of_decide
    decide +kernel
  obtain ⟨t, run', zero', one', far⟩ : ∃ t, Runs step Ok empty (visit ++ [.move 1 (point 1 20 3)]) t ∧ t.Has 0 ∧ t.Has 1 ∧
      (t.layout.witness 0).aoiRadius + (t.layout.witness 0).aoiHysteresisArea <
        |t.layout.position 1 .y - t.layout.position 0 .y| := by
    apply Runs.exists_of_decide
    decide +kernel
  refine ⟨s, t, run, ?_, ?_, run', ?_⟩
  · exact ((aoi_matches run).2 0 1 zero one (by decide)).1 near
  · exact ((aoi_matches run).2 1 0 one zero (by decide)).1 near'
  · exact ((aoi_matches run').2 0 1 zero' one' (by decide)).2 ⟨.y, far⟩

/-- On a boundary the views are wrong both ways. An entity that enters at exactly the radius
is not seen; one that leaves along another axis while it stands exactly at radius and
hysteresis is still seen. -/
theorem aoi_tie :
    (∃ s, Runs step (fun _ _ => True) empty [.add 0 (point 0 0 0) 5 1, .add 1 (point 0 0 (-5)) 5 1] s ∧
      s.Has 0 ∧ s.Has 1 ∧ (∀ a, |s.layout.position 1 a - s.layout.position 0 a| ≤ (s.layout.witness 0).aoiRadius) ∧
      ¬ s.views.Live 0 1) ∧
    ∃ s, Runs step (fun _ _ => True) empty
        [.add 0 (point 0 0 0) 5 1, .add 1 (point 0 0 0) 5 1, .move 1 (point (-6) 0 0), .move 1 (point (-6) 0 100)] s ∧
      s.Has 0 ∧ s.Has 1 ∧ (s.layout.witness 0).aoiRadius + (s.layout.witness 0).aoiHysteresisArea <
        |s.layout.position 1 .z - s.layout.position 0 .z| ∧ s.views.Live 0 1 := by
  constructor
  · apply Runs.exists_of_decide
    decide +kernel
  · apply Runs.exists_of_decide
    decide +kernel

end Tests

end GameServer.Aoi

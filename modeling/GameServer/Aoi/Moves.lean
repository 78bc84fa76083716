import GameServer.Aoi.Geometry

/-!
# Moving an entity

`Inv` is what holds between operations: the lists are sorted by the coordinates of their
nodes, no entity is on a boundary of another, and the views match the distances. A move
updates the five nodes of an entity one after the other (`Moving`). Positions and ranges are
the new ones throughout, so nothing undoes what is right already (`Moving.run`); and where a
distance has changed sides, the update of one of these nodes says so (`Moving.seen`,
`Moving.unseen`).
-/

namespace GameServer.Aoi

open GameServer.Lib

/-- The entity a node belongs to. -/
def Node.owner : Node → Nat
  | .entity id => id
  | .boundary b => b.origin

/-- The entity is in the space. -/
def Space.Has (s : Space) (id : Nat) : Prop := Node.entity id ∈ s.list .x

/-- The boundaries of an entity, in the order of `watcherNodes_`. -/
def boundaries (id : Nat) : List Boundary :=
  [⟨id, .hysteresis, .positive⟩, ⟨id, .hysteresis, .negative⟩, ⟨id, .aoi, .positive⟩, ⟨id, .aoi, .negative⟩]

/-- The lists hold the nodes of `P`, sorted. -/
structure Lists (s : Space) (P : Node → Prop) : Prop where
  nodup : ∀ a, (s.list a).Nodup
  mem : ∀ a n, n ∈ s.list a ↔ P n
  sorted : ∀ a, (s.list a).Pairwise fun c d => s.coord c a ≤ s.coord d a

/-- The nodes of `P` are where they belong. -/
structure Steady (s : Space) (P : Node → Prop) : Prop extends Lists s P where
  coord : ∀ n a, P n → s.coord n a = s.layout.xx n a
  old : ∀ n a, P n → s.layout.old n a = s.layout.xx n a
  oldRange : ∀ b, P (.boundary b) → s.layout.oldRange b = s.layout.range b

/-- The view of `e` by `o` matches their distance. -/
structure Matches (s : Space) (o e : Nat) : Prop where
  seen : Near (s.layout.witness o).aoiRadius (s.layout.position o) (s.layout.position e) → s.views.Live o e
  unseen : ¬ Near ((s.layout.witness o).aoiRadius + (s.layout.witness o).aoiHysteresisArea) (s.layout.position o)
    (s.layout.position e) → ¬ s.views.Live o e

/-- What holds between operations. -/
structure Inv (s : Space) : Prop extends Steady s (fun n => s.Has n.owner) where
  good : ∀ o, s.Has o → (s.layout.witness o).Good
  range : ∀ b a, s.Has b.origin → s.layout.range b a = b.side.sign * (s.layout.witness b.origin).reach b.kind
  world : ∀ o, s.Has o → InWorld (s.layout.position o)
  apart : ∀ o e, s.Has o → s.Has e → o ≠ e → Apart (s.layout.witness o) (s.layout.position o) (s.layout.position e)
  watchers : ∀ o, s.Has o → s.watcherNodes o = boundaries o
  absent : ∀ o, ¬ s.Has o → s.watcherNodes o = []
  sound : s.views.Sound
  live : ∀ o e, s.views.Live o e → s.Has o ∧ s.Has e
  views : ∀ o e, s.Has o → s.Has e → o ≠ e → Matches s o e

section Lists

variable {s t : Space} {P : Node → Prop} {n c d : Node} {a : Axis}

theorem Lists.ready (lists : Lists s P) (here : P n) (fresh : s.layout.xx n a = s.layout.old n a → s.coord n a = s.layout.xx n a) :
    Ready s n a :=
  ⟨lists.nodup a, (lists.mem a n).2 here, lists.sorted a, fresh⟩

theorem Updated.lists (updated : Updated n s t) (lists : Lists s P) : Lists t P where
  nodup a := (updated.lined a).perm.nodup_iff.2 (lists.nodup a)
  mem a c := (updated.lined a).perm.mem_iff.trans (lists.mem a c)
  sorted a := (updated.lined a).sorted

/-- Nodes with different coordinates stand in their order. -/
theorem Lists.before (lists : Lists s P) (left : P c) (right : P d) (less : s.coord c a < s.coord d a) :
    Before (s.list a) c d := by
  have ne : c ≠ d := by
    rintro rfl
    exact lt_irrefl _ less
  rcases before_or ((lists.mem a c).2 left) ((lists.mem a d).2 right) ne with before | before
  · exact before
  · have le : s.coord d a ≤ s.coord c a := before.rel (lists.sorted a)
    exact absurd less (not_lt.2 le)

/-- A node that goes past another one crosses it. -/
theorem Lists.crossed (lists : Lists s P) (left : P n) (right : P c)
    (between : s.coord n a < s.coord c a ∧ s.coord c a < s.layout.xx n a ∨
      s.layout.xx n a < s.coord c a ∧ s.coord c a < s.coord n a) : Crossed s a n c := by
  rcases between with ⟨less, more⟩ | ⟨less, more⟩
  · exact .inl ⟨lists.before left right less, more⟩
  · exact .inr ⟨lists.before right left more, less⟩

theorem Updated.position (updated : Updated n s t) : t.layout.position = s.layout.position := by
  rw [updated.layout]
  cases n <;> rfl

theorem Updated.witness (updated : Updated n s t) : t.layout.witness = s.layout.witness := by
  rw [updated.layout]
  cases n <;> rfl

theorem Updated.range (updated : Updated n s t) : t.layout.range = s.layout.range := by
  rw [updated.layout]
  cases n <;> rfl

theorem Updated.xx (updated : Updated n s t) (c : Node) : t.layout.xx c = s.layout.xx c := by
  funext a
  cases c with
  | entity e => simp only [Layout.xx, updated.position]
  | boundary b => simp only [Layout.xx, updated.position, updated.range]

theorem Updated.old (updated : Updated n s t) : t.layout.old = Function.update s.layout.old n (s.layout.xx n) := by
  rw [updated.layout]
  cases n <;> rfl

theorem Updated.oldRange (updated : Updated n s t) {b : Boundary} (same : s.layout.oldRange b = s.layout.range b) :
    t.layout.oldRange b = s.layout.range b := by
  rw [updated.layout]
  cases n with
  | entity e => exact same
  | boundary b' =>
    by_cases here : b = b'
    · rw [here]
      exact Function.update_self _ _ _
    · exact (Function.update_of_ne here _ _).trans same

end Lists

/-- In the middle of a move of `id` to `pos`: the nodes `done` have been updated. -/
structure Moving (s : Space) (id : Nat) (pos : Axis → ℚ) (done : List Node) (m : Space) : Prop where
  lists : Lists m fun n => s.Has n.owner
  position : m.layout.position = Function.update s.layout.position id pos
  witness : m.layout.witness = s.layout.witness
  range : m.layout.range = s.layout.range
  oldRange : ∀ b, s.Has b.origin → m.layout.oldRange b = s.layout.range b
  coord : ∀ n a, s.Has n.owner → m.coord n a = m.layout.old n a
  updated : ∀ n a, s.Has n.owner → n ∈ done → m.layout.old n a = m.layout.xx n a
  waiting : ∀ n a, s.Has n.owner → n ∉ done → m.layout.old n a = s.layout.xx n a
  watcherNodes : m.watcherNodes = s.watcherNodes
  sound : m.views.Sound
  live : ∀ o e, m.views.Live o e → s.Has o ∧ s.Has e

section Moving

variable {s m t : Space} {id o e : Nat} {pos : Axis → ℚ} {done : List Node} {n : Node} {b : Boundary} {a : Axis}

theorem Inv.moving (inv : Inv s) (id : Nat) (pos : Axis → ℚ) : Moving s id pos [] (s.setPosition id pos) where
  lists := ⟨inv.nodup, inv.mem, inv.sorted⟩
  position := rfl
  witness := rfl
  range := rfl
  oldRange b here := inv.oldRange b here
  coord n a here := (inv.coord n a here).trans (inv.old n a here).symm
  updated _ _ _ mem := nomatch mem
  waiting n a here _ := inv.old n a here
  watcherNodes := rfl
  sound := inv.sound
  live := inv.live

/-- One of the updates. -/
theorem Moving.update (moving : Moving s id pos done m) (here : s.Has n.owner) :
    ∃ t, m.update n = some t ∧ Updated n m t ∧ Moving s id pos (n :: done) t := by
  have ready : ∀ a, Ready m n a := fun a =>
    moving.lists.ready here fun same => (moving.coord n a here).trans same.symm
  obtain ⟨t, run, updated⟩ := update_spec ready
  refine ⟨t, run, updated, ?_⟩
  have self : ∀ a, t.layout.old n a = m.layout.xx n a := by
    intro a
    rw [updated.old, Function.update_self]
  have other : ∀ c, c ≠ n → t.layout.old c = m.layout.old c := by
    intro c ne
    rw [updated.old, Function.update_of_ne ne]
  constructor
  · exact updated.lists moving.lists
  · rw [updated.position, moving.position]
  · rw [updated.witness, moving.witness]
  · rw [updated.range, moving.range]
  · intro b here
    have same : m.layout.oldRange b = m.layout.range b := by rw [moving.oldRange b here, moving.range]
    rw [updated.oldRange same, moving.range]
  · intro c a here
    by_cases same : c = n
    · rw [same, (updated.lined a).self, self]
    · rw [updated.coord c a same, other c same, moving.coord c a here]
  · intro c a here mem
    rw [updated.xx]
    by_cases same : c = n
    · rw [same, self]
    · rw [other c same]
      exact moving.updated c a here ((List.mem_cons.1 mem).resolve_left same)
  · intro c a here waiting
    rw [List.mem_cons, not_or] at waiting
    rw [other c waiting.1, moving.waiting c a here waiting.2]
  · rw [updated.watcherNodes, moving.watcherNodes]
  · exact updated.sound moving.sound
  · intro o e live
    rcases updated.present (fun a c => (moving.lists.mem a c).1) here moving.sound live with live | ⟨entity, b, rfl, boundary⟩
    · exact moving.live o e live
    · exact ⟨boundary, entity⟩

theorem Inv.abs_range (inv : Inv s) (here : s.Has b.origin) (a : Axis) :
    |s.layout.range b a| = (s.layout.witness b.origin).reach b.kind := by
  rw [inv.range b a here]
  exact b.side.abs_sign _ ((inv.good b.origin here).reach_pos b.kind).le

/-- What the boundaries see now is the new distance. -/
theorem Moving.isInRange_iff (moving : Moving s id pos done m) (inv : Inv s) (here : s.Has b.origin) (a : Axis) :
    m.layout.isInRange b (.entity e) a = true ↔
      |Function.update s.layout.position id pos e a - Function.update s.layout.position id pos b.origin a| ≤
        (s.layout.witness b.origin).reach b.kind := by
  rw [Layout.isInRange_iff, moving.position, moving.range, inv.abs_range here]

theorem Moving.is_iff (moving : Moving s id pos done m) (inv : Inv s) (here : s.Has b.origin) :
    m.layout.Is b (.entity e) ↔ Near ((s.layout.witness b.origin).reach b.kind)
      (Function.update s.layout.position id pos b.origin) (Function.update s.layout.position id pos e) :=
  forall_congr' fun a => moving.isInRange_iff inv here a

theorem Moving.stays (moving : Moving s id pos done m) (inv : Inv s) (here : s.Has o)
    (near : Near (s.layout.witness o).aoiRadius (Function.update s.layout.position id pos o)
      (Function.update s.layout.position id pos e)) (n : Node) : m.layout.Stays n o e := by
  rintro b rfl kind - isfront -
  rw [moving.is_iff inv here, kind]
  exact near.mono (inv.good b.origin here).aoi_le

theorem Moving.away (moving : Moving s id pos done m) (inv : Inv s) (here : s.Has o)
    (far : ¬ Near ((s.layout.witness o).aoiRadius + (s.layout.witness o).aoiHysteresisArea)
      (Function.update s.layout.position id pos o) (Function.update s.layout.position id pos e)) (n : Node) :
    m.layout.Away n o e := by
  rintro b rfl kind - is
  rw [moving.is_iff inv here, kind] at is
  exact far (is.mono (inv.good b.origin here).aoi_le)

theorem Moving.area (moving : Moving s id pos done m) (inv : Inv s) (here : s.Has o) : m.layout.Area o := by
  rw [Layout.Area, moving.witness, (inv.good o here).range]
  rfl

/-- The updates keep what is right already. -/
structure Kept (s : Space) (id : Nat) (pos : Axis → ℚ) (m t : Space) (o e : Nat) : Prop where
  seen : Near (s.layout.witness o).aoiRadius (Function.update s.layout.position id pos o)
    (Function.update s.layout.position id pos e) → m.views.Live o e → t.views.Live o e
  unseen : ¬ Near ((s.layout.witness o).aoiRadius + (s.layout.witness o).aoiHysteresisArea)
    (Function.update s.layout.position id pos o) (Function.update s.layout.position id pos e) →
    ¬ m.views.Live o e → ¬ t.views.Live o e

theorem Moving.kept (moving : Moving s id pos done m) (inv : Inv s) (here : s.Has o) (updated : Updated n m t) (e : Nat) :
    Kept s id pos m t o e where
  seen near live := updated.live (moving.stays inv here near n) (moving.area inv here) moving.sound live
  unseen far dead := updated.dead (moving.away inv here far n) moving.sound dead

theorem Moving.run (moving : Moving s id pos done m) (inv : Inv s) {ns : List Node} (here : ∀ n ∈ ns, s.Has n.owner) :
    ∃ t, ns.foldlM (fun (m : Space) n => m.update n) m = some t ∧ Moving s id pos (ns.reverse ++ done) t ∧
      ∀ o e, s.Has o → Kept s id pos m t o e := by
  induction ns generalizing m done with
  | nil => exact ⟨m, rfl, moving, fun o e _ => ⟨fun _ live => live, fun _ dead => dead⟩⟩
  | cons n ns ih =>
    obtain ⟨t, first, updated, moving'⟩ := moving.update (here n List.mem_cons_self)
    obtain ⟨u, rest, moving'', kept⟩ := ih moving' fun c mem => here c (List.mem_cons_of_mem n mem)
    refine ⟨u, ?_, by simpa using moving'', ?_⟩
    · rw [List.foldlM_cons, first]
      exact rest
    · intro o e here
      have first := moving.kept inv here updated e
      have rest := kept o e here
      exact ⟨fun near live => rest.seen near (first.seen near live), fun far dead => rest.unseen far (first.unseen far dead)⟩

/-- A node of another entity has not moved. -/
theorem xx_update_of_ne (other : n.owner ≠ id) (position : m.layout.position = Function.update s.layout.position id pos)
    (range : m.layout.range = s.layout.range) : m.layout.xx n a = s.layout.xx n a := by
  cases n with
  | entity e =>
    have other : e ≠ id := other
    show m.layout.position e a = s.layout.position e a
    rw [position, Function.update_of_ne other]
  | boundary b =>
    have other : b.origin ≠ id := other
    show m.layout.position b.origin a + m.layout.range b a = s.layout.position b.origin a + s.layout.range b a
    rw [position, range, Function.update_of_ne other]

/-- A node that has not been updated has its old coordinates. -/
theorem Moving.old_eq (moving : Moving s id pos done m) (here : s.Has n.owner) (todo : n.owner ≠ id ∨ n ∉ done) (a : Axis) :
    m.layout.old n a = s.layout.xx n a := by
  by_cases mem : n ∈ done
  · rw [moving.updated n a here mem]
    exact xx_update_of_ne (todo.resolve_right fun out => out mem) moving.position moving.range
  · exact moving.waiting n a here mem

/-- What a boundary saw was the old distance. -/
theorem Moving.wasInRange_iff (moving : Moving s id pos done m) (inv : Inv s) (here : s.Has b.origin) (here' : s.Has e)
    (other : b.origin ≠ e) (boundary : b.origin ≠ id ∨ .boundary b ∉ done) (entity : e ≠ id ∨ .entity e ∉ done)
    (isfront : Bool) (a : Axis) :
    m.layout.wasInRange b (.entity e) isfront a = true ↔
      |s.layout.position e a - s.layout.position b.origin a| ≤ (s.layout.witness b.origin).reach b.kind := by
  have old : m.layout.old (.entity e) a = s.layout.position e a := moving.old_eq (n := .entity e) here' entity a
  have center : m.layout.old (.boundary b) a - m.layout.oldRange b a = s.layout.position b.origin a := by
    rw [moving.old_eq (n := .boundary b) here boundary a, moving.oldRange b here]
    exact add_sub_cancel_right _ _
  have reach := inv.abs_range here a
  have untied := inv.apart b.origin e here here' other b.kind a
  rw [← reach, ← moving.oldRange b here] at untied ⊢
  rw [Layout.wasInRange_iff center (by rw [old]; exact untied), old]

/-- A boundary of `o` and the entity `e`: the update of one of them, `n`, tells `o` that their
distance has changed sides. -/
structure Tells (s : Space) (id : Nat) (pos : Axis → ℚ) (o e : Nat) (kind : Kind) (n c : Node) (b : Boundary) : Prop where
  origin : b.origin = o
  which : b.kind = kind
  pair : n = .entity e ∧ c = .boundary b ∨ n = .boundary b ∧ c = .entity e
  owner : n.owner = id
  tells : ∀ done m, Moving s id pos done m → n ∉ done →
    (∀ isfront, m.layout.Was b (.entity e) isfront ↔
      Near ((s.layout.witness o).reach kind) (s.layout.position o) (s.layout.position e)) ∧
    ∃ a, Crossed m a n c ∧ ∀ isfront, m.layout.Turns b (.entity e) isfront a

/-- The tests turn on the first axis on which the distance changes sides. -/
theorem Moving.turns (moving : Moving s id pos done m) (inv : Inv s) (here : s.Has b.origin) (here' : s.Has e)
    (other : b.origin ≠ e) (boundary : b.origin ≠ id ∨ .boundary b ∉ done) (entity : e ≠ id ∨ .entity e ∉ done)
    {was is : Axis → Bool}
    (was_eq : was = fun a => decide (|s.layout.position e a - s.layout.position b.origin a| ≤
      (s.layout.witness b.origin).reach b.kind))
    (is_eq : is = fun a => decide (|Function.update s.layout.position id pos e a -
      Function.update s.layout.position id pos b.origin a| ≤ (s.layout.witness b.origin).reach b.kind))
    (differ : was a ≠ is a) (above : ∀ a' ∈ a.above, was a' = is a') (isfront : Bool) :
    m.layout.Turns b (.entity e) isfront a := by
  have before : ∀ a, m.layout.wasInRange b (.entity e) isfront a = was a := by
    intro a
    rw [was_eq, Bool.eq_iff_iff, decide_eq_true_eq]
    exact moving.wasInRange_iff inv here here' other boundary entity isfront a
  have after : ∀ a, m.layout.isInRange b (.entity e) a = is a := by
    intro a
    rw [is_eq, Bool.eq_iff_iff, decide_eq_true_eq]
    exact moving.isInRange_iff inv here a
  constructor
  · rw [before, after]
    exact differ
  · intro a' mem
    rw [before, after]
    exact above a' mem

/-- Where a distance changes sides, a node of the moving entity tells. -/
theorem Inv.tells (inv : Inv s) (here : s.Has o) (here' : s.Has e) (other : o ≠ e) (kind : Kind)
    (apart : Apart (s.layout.witness o) (Function.update s.layout.position id pos o) (Function.update s.layout.position id pos e))
    (changed : ¬ (Near ((s.layout.witness o).reach kind) (s.layout.position o) (s.layout.position e) ↔
      Near ((s.layout.witness o).reach kind) (Function.update s.layout.position id pos o)
        (Function.update s.layout.position id pos e))) :
    ∃ n c b, Tells s id pos o e kind n c b := by
  obtain ⟨a, differ, above⟩ := exists_first
    (fun a => decide (|s.layout.position e a - s.layout.position o a| ≤ (s.layout.witness o).reach kind))
    (fun a => decide (|Function.update s.layout.position id pos e a -
      Function.update s.layout.position id pos o a| ≤ (s.layout.witness o).reach kind)) (by simpa [Near] using changed)
  obtain ⟨side, between⟩ := crossing (p := 0) (u := s.layout.position e a - s.layout.position o a)
    (v := Function.update s.layout.position id pos e a - Function.update s.layout.position id pos o a)
    (r := (s.layout.witness o).reach kind) (by simpa [sub_zero] using differ)
    (by rw [sub_zero]; exact inv.apart o e here here' other kind a) (by rw [sub_zero]; exact apart kind a)
  rw [zero_add] at between
  have range : s.layout.xx (.boundary ⟨o, kind, side⟩) a = s.layout.position o a + side.sign * (s.layout.witness o).reach kind := by
    show s.layout.position o a + s.layout.range ⟨o, kind, side⟩ a = _
    rw [inv.range ⟨o, kind, side⟩ a here]
  by_cases entity : e = id
  · have origin : o ≠ id := fun same => other (same.trans entity.symm)
    refine ⟨.entity e, .boundary ⟨o, kind, side⟩, ⟨o, kind, side⟩, rfl, rfl, .inl ⟨rfl, rfl⟩, entity, ?_⟩
    intro done m moving todo
    refine ⟨fun isfront => forall_congr' fun a =>
      moving.wasInRange_iff (b := ⟨o, kind, side⟩) inv here here' other (.inl origin) (.inr todo) isfront a, a, ?_, ?_⟩
    · apply moving.lists.crossed (n := .entity e) (c := .boundary ⟨o, kind, side⟩) here' here
      have new : m.layout.xx (.entity e) a = Function.update s.layout.position id pos e a := by
        show m.layout.position e a = _
        rw [moving.position]
      have old : s.layout.xx (.entity e) a = s.layout.position e a := rfl
      rw [moving.coord (.entity e) a here', moving.old_eq (n := .entity e) here' (.inr todo),
        moving.coord (.boundary ⟨o, kind, side⟩) a here, moving.old_eq (n := .boundary ⟨o, kind, side⟩) here (.inl origin),
        range, new, old]
      rw [Function.update_of_ne origin] at between
      rcases between with ⟨low, high⟩ | ⟨low, high⟩
      · exact .inl ⟨by linarith, by linarith⟩
      · exact .inr ⟨by linarith, by linarith⟩
    · exact moving.turns (b := ⟨o, kind, side⟩) inv here here' other (.inl origin) (.inr todo) rfl rfl differ above
  · have origin : o = id := by
      by_contra origin
      rw [Function.update_of_ne entity, Function.update_of_ne origin] at changed
      exact changed Iff.rfl
    refine ⟨.boundary ⟨o, kind, side⟩, .entity e, ⟨o, kind, side⟩, rfl, rfl, .inr ⟨rfl, rfl⟩, origin, ?_⟩
    intro done m moving todo
    refine ⟨fun isfront => forall_congr' fun a =>
      moving.wasInRange_iff (b := ⟨o, kind, side⟩) inv here here' other (.inr todo) (.inl entity) isfront a, a, ?_, ?_⟩
    · apply moving.lists.crossed (n := .boundary ⟨o, kind, side⟩) (c := .entity e) here here'
      have new : m.layout.xx (.boundary ⟨o, kind, side⟩) a =
          Function.update s.layout.position id pos o a + side.sign * (s.layout.witness o).reach kind := by
        show m.layout.position o a + m.layout.range ⟨o, kind, side⟩ a = _
        rw [moving.position, moving.range, inv.range ⟨o, kind, side⟩ a here]
      have old : s.layout.xx (.entity e) a = s.layout.position e a := rfl
      rw [moving.coord (.entity e) a here', moving.old_eq (n := .entity e) here' (.inl entity),
        moving.coord (.boundary ⟨o, kind, side⟩) a here, moving.old_eq (n := .boundary ⟨o, kind, side⟩) here (.inr todo),
        range, new, old]
      rw [Function.update_of_ne entity] at between
      rcases between with ⟨low, high⟩ | ⟨low, high⟩
      · exact .inr ⟨by linarith, by linarith⟩
      · exact .inl ⟨by linarith, by linarith⟩
    · exact moving.turns (b := ⟨o, kind, side⟩) inv here here' other (.inr todo) (.inl entity) rfl rfl differ above

/-- The nodes of an entity, in the order in which a move updates them. -/
def nodes (id : Nat) : List Node := .entity id :: (boundaries id).map .boundary

theorem mem_nodes : n ∈ nodes id ↔ n.owner = id := by
  constructor
  · intro mem
    simp only [nodes, boundaries, List.map_cons, List.map_nil, List.mem_cons, List.not_mem_nil, or_false] at mem
    rcases mem with rfl | rfl | rfl | rfl | rfl <;> rfl
  · rintro rfl
    cases n with
    | entity e => exact List.mem_cons_self
    | boundary b =>
      obtain ⟨origin, kind, side⟩ := b
      cases kind <;> cases side <;> simp [nodes, boundaries, Node.owner]

theorem nodup_nodes (id : Nat) : (nodes id).Nodup := by
  simp [nodes, boundaries]

/-- Every node of the entity gets its update in the course of the move. -/
theorem Inv.reaches (inv : Inv s) (here : s.Has id) (mem : n ∈ nodes id)
    (run : (nodes id).foldlM (fun (m : Space) n => m.update n) (s.setPosition id pos) = some t) :
    ∃ done m u, Moving s id pos done m ∧ n ∉ done ∧ Updated n m u ∧ ∀ o e, s.Has o → Kept s id pos u t o e := by
  have owned : ∀ c ∈ nodes id, s.Has c.owner := fun c mem => by rw [mem_nodes.1 mem]; exact here
  have nodup := nodup_nodes id
  obtain ⟨first, rest, split⟩ := List.append_of_mem mem
  rw [split] at run owned nodup
  obtain ⟨m, run', moving, -⟩ := (inv.moving id pos).run inv fun c mem => owned c (List.mem_append_left _ mem)
  obtain ⟨u, next, updated, moving'⟩ := moving.update (owned n (List.mem_append_right _ List.mem_cons_self))
  obtain ⟨t', run'', -, kept⟩ := moving'.run inv fun c mem => owned c (List.mem_append_right _ (List.mem_cons_of_mem n mem))
  have whole : (first ++ n :: rest).foldlM (fun (m : Space) n => m.update n) (s.setPosition id pos) = some t' := by
    rw [List.foldlM_append, run']
    show (n :: rest).foldlM (fun (m : Space) n => m.update n) m = some t'
    rw [List.foldlM_cons, next]
    exact run''
  obtain rfl := Option.some.inj (whole.symm.trans run)
  refine ⟨first.reverse ++ [], m, u, moving, ?_, updated, kept⟩
  rw [List.append_nil, List.mem_reverse]
  exact fun mem => (List.nodup_append.1 nodup).2.2 n mem n List.mem_cons_self rfl

/-- After the move the views match the new distances. -/
theorem Inv.matches_move (inv : Inv s) (moved : s.Has id) (here : s.Has o) (here' : s.Has e) (other : o ≠ e)
    (apart : Apart (s.layout.witness o) (Function.update s.layout.position id pos o) (Function.update s.layout.position id pos e))
    (run : (nodes id).foldlM (fun (m : Space) n => m.update n) (s.setPosition id pos) = some t)
    (kept : Kept s id pos (s.setPosition id pos) t o e) :
    (Near (s.layout.witness o).aoiRadius (Function.update s.layout.position id pos o)
      (Function.update s.layout.position id pos e) → t.views.Live o e) ∧
    (¬ Near ((s.layout.witness o).aoiRadius + (s.layout.witness o).aoiHysteresisArea)
      (Function.update s.layout.position id pos o) (Function.update s.layout.position id pos e) → ¬ t.views.Live o e) := by
  obtain ⟨seen, unseen⟩ := inv.views o e here here' other
  constructor
  · intro near
    by_cases before : Near (s.layout.witness o).aoiRadius (s.layout.position o) (s.layout.position e)
    · exact kept.seen near (seen before)
    · obtain ⟨n, c, b, rfl, kind, pair, owner, tells⟩ := inv.tells here here' other .aoi apart
        (fun iff => before (iff.2 near))
      obtain ⟨done, m, u, moving, todo, updated, kept'⟩ := inv.reaches moved (mem_nodes.2 owner) run
      obtain ⟨was, a, crossed, turns⟩ := tells done m moving todo
      refine (kept' b.origin e here).seen near ?_
      refine updated.enters pair crossed turns other.symm kind (fun isfront saw => before ((was isfront).1 saw)) ?_
        (moving.stays inv here near n) (moving.area inv here) moving.sound
      rw [moving.is_iff inv here, kind]
      exact near
  · intro far
    by_cases before : Near ((s.layout.witness o).aoiRadius + (s.layout.witness o).aoiHysteresisArea) (s.layout.position o)
        (s.layout.position e)
    · obtain ⟨n, c, b, rfl, kind, pair, owner, tells⟩ := inv.tells here here' other .hysteresis apart
        (fun iff => far (iff.1 before))
      obtain ⟨done, m, u, moving, todo, updated, kept'⟩ := inv.reaches moved (mem_nodes.2 owner) run
      obtain ⟨was, a, crossed, turns⟩ := tells done m moving todo
      refine (kept' b.origin e here).unseen far ?_
      refine updated.leaves pair crossed turns other.symm kind (fun isfront => (was isfront).2 before) ?_
        (moving.away inv here far n) moving.sound
      rw [moving.is_iff inv here, kind]
      exact far
    · exact kept.unseen far (unseen before)

theorem updateEntity_eq (inv : Inv s) (here : s.Has id) :
    (s.setPosition id pos).updateEntity id = (nodes id).foldlM (fun (m : Space) n => m.update n) (s.setPosition id pos) := by
  obtain ⟨t, run, -, moving⟩ := (inv.moving id pos).update (n := .entity id) here
  have watchers : t.watcherNodes id = boundaries id := by rw [moving.watcherNodes, inv.watchers id here]
  rw [nodes, List.foldlM_cons, Space.updateEntity, run]
  show (t.watcherNodes id).foldlM _ t = _
  rw [watchers]
  exact (List.foldlM_map).symm

/-- **A move** keeps the invariant. -/
theorem Inv.move (inv : Inv s) (here : s.Has id) (world : InWorld pos)
    (apart : ∀ o e, s.Has o → s.Has e → o ≠ e → Apart (s.layout.witness o) (Function.update s.layout.position id pos o)
      (Function.update s.layout.position id pos e)) :
    ∃ t, (s.setPosition id pos).updateEntity id = some t ∧ Inv t := by
  have owned : ∀ n ∈ nodes id, s.Has n.owner := fun n mem => by rw [mem_nodes.1 mem]; exact here
  obtain ⟨t, run, moving, kept⟩ := (inv.moving id pos).run inv owned
  have has : ∀ o, t.Has o ↔ s.Has o := fun o => moving.lists.mem .x (.entity o)
  have old : ∀ n a, s.Has n.owner → t.layout.old n a = t.layout.xx n a := by
    intro n a here'
    by_cases mem : n ∈ nodes id
    · exact moving.updated n a here' (List.mem_append_left _ (List.mem_reverse.2 mem))
    · have other : n.owner ≠ id := fun same => mem (mem_nodes.2 same)
      rw [moving.old_eq here' (.inl other), xx_update_of_ne other moving.position moving.range]
  refine ⟨t, (updateEntity_eq inv here).trans run, ?_⟩
  constructor
  · refine ⟨⟨moving.lists.nodup, ?_, moving.lists.sorted⟩, ?_, ?_, ?_⟩
    · intro a n
      rw [has]
      exact moving.lists.mem a n
    · intro n a here'
      rw [has] at here'
      rw [moving.coord n a here', old n a here']
    · intro n a here'
      rw [has] at here'
      exact old n a here'
    · intro b here'
      rw [moving.oldRange b ((has _).1 here'), moving.range]
  · intro o here'
    rw [moving.witness]
    exact inv.good o ((has o).1 here')
  · intro b a here'
    rw [moving.range, moving.witness]
    exact inv.range b a ((has _).1 here')
  · intro o here'
    rw [moving.position]
    by_cases same : o = id
    · rw [same, Function.update_self]
      exact world
    · rw [Function.update_of_ne same]
      exact inv.world o ((has o).1 here')
  · intro o e here' there other
    rw [moving.witness, moving.position]
    exact apart o e ((has o).1 here') ((has e).1 there) other
  · intro o here'
    rw [moving.watcherNodes]
    exact inv.watchers o ((has o).1 here')
  · intro o absent
    rw [moving.watcherNodes]
    exact inv.absent o fun here' => absent ((has o).2 here')
  · exact moving.sound
  · intro o e live
    rw [has, has]
    exact moving.live o e live
  · intro o e here' there other
    rw [has] at here' there
    obtain ⟨seen, unseen⟩ := inv.matches_move here here' there other (apart o e here' there other) run (kept o e here')
    rw [← moving.position, ← moving.witness] at seen unseen
    exact ⟨seen, unseen⟩

end Moving

end GameServer.Aoi

import GameServer.Aoi.Symmetry

/-!
# Leaving the space

`CoordinateSystem::remove` counts on `update` to take the node past all boundaries, so that who sees the
entity leaves it. A boundary that is being removed goes to `-FLT_MAX`; an entity's node stays where the entity
is, passes nobody (`update_home`), and who sees the entity goes on to see it (`removeEntity_live`). Apart from
that nobody sees an entity that is in no space (`views_cleared`).

`Tracked` is what every operation keeps: who is seen has a node, and the nodes of entities are where the
entities are. `insert` takes a node that stands at `-FLT_MAX` for one that has not moved.
-/

namespace GameServer.Aoi

open GameServer.Lib Space

/-- A boundary, or the node of an entity in `K`. -/
def Node.Among (K : Nat → Prop) : Node → Prop
  | .entity e => K e
  | .boundary _ => True

/-- The entities that are seen or have a node are in `K`, and those in `Q` are where their nodes are. -/
structure Tracked (K Q : Nat → Prop) (s : Space) : Prop where
  both : s.views.Mutual
  seen : ∀ o e, s.views.Live o e → K e
  nodes : ∀ a, ∀ c ∈ s.list a, c.Among K
  home : ∀ e, Q e → ∀ a, s.coord (.entity e) a = s.layout.position e a ∧ s.layout.old (.entity e) a = s.layout.position e a

/-- The loops on one axis, among these nodes. -/
structure Goes (K : Nat → Prop) (a : Axis) (n : Node) (s t : Space) : Prop where
  passes : ∃ ps, Passes a n ps s t ∧ ∀ p ∈ ps, p.1.Among K
  nodes : ∀ c ∈ t.list a, c.Among K

section Loops

variable {K Q : Nat → Prop} {a : Axis} {n : Node} {s t u : Space} {prev next : List Node} {k : Nat}

theorem Goes.refl (nodes : ∀ c ∈ s.list a, c.Among K) : Goes K a n s s := ⟨⟨[], .refl a n s, nofun⟩, nodes⟩

theorem Goes.trans (first : Goes K a n s t) (second : Goes K a n t u) : Goes K a n s u := by
  obtain ⟨ps, passes, among⟩ := first.passes
  obtain ⟨qs, passes', among'⟩ := second.passes
  refine ⟨⟨ps ++ qs, passes.trans passes', fun p mem => ?_⟩, second.nodes⟩
  rcases List.mem_append.1 mem with mem | mem
  · exact among p mem
  · exact among' p mem

theorem Goes.pass {c : Node} (among : c.Among K) (up : Bool) {nodes : List Node} (all : ∀ d ∈ nodes, d.Among K) :
    Goes K a n s (s.pass a n c up nodes) := by
  refine ⟨⟨_, .pass a n c up nodes s, fun p mem => ?_⟩, ?_⟩
  · rw [List.mem_singleton.1 mem]
    exact among
  · rw [list_pass]
    exact all

theorem goes_passDown (self : n.Among K) (nodes : ∀ c ∈ s.list a, c.Among K) (before : ∀ c ∈ prev, c.Among K)
    (after : ∀ c ∈ next, c.Among K) : Goes K a n s (passDown a n prev next s) := by
  induction prev generalizing next s with
  | nil => exact .refl nodes
  | cons c prev ih =>
    rw [passDown]
    split_ifs
    · have here := before c List.mem_cons_self
      have rest : ∀ d ∈ prev, d.Among K := fun d mem => before d (List.mem_cons_of_mem c mem)
      have first : Goes K a n s (s.pass a n c false (prev.reverse ++ n :: c :: next)) := by
        refine .pass here false fun d mem => ?_
        simp only [List.mem_append, List.mem_reverse, List.mem_cons] at mem
        rcases mem with mem | rfl | rfl | mem
        · exact rest d mem
        · exact self
        · exact here
        · exact after d mem
      refine first.trans (ih first.nodes rest fun d mem => ?_)
      rcases List.mem_cons.1 mem with rfl | mem
      · exact here
      · exact after d mem
    · exact .refl nodes

theorem goes_passUp (self : n.Among K) (nodes : ∀ c ∈ s.list a, c.Among K) (before : ∀ c ∈ prev, c.Among K)
    (after : ∀ c ∈ next, c.Among K) : Goes K a n s (passUp a n prev next s) := by
  induction next generalizing prev s with
  | nil =>
    rw [passUp]
    exact .refl nodes
  | cons c next ih =>
    rw [passUp]
    split_ifs
    · have here := after c List.mem_cons_self
      have rest : ∀ d ∈ next, d.Among K := fun d mem => after d (List.mem_cons_of_mem c mem)
      have first : Goes K a n s (s.pass a n c true ((c :: prev).reverse ++ n :: next)) := by
        refine .pass here true fun d mem => ?_
        simp only [List.mem_append, List.mem_reverse, List.mem_cons] at mem
        rcases mem with (rfl | mem) | rfl | mem
        · exact here
        · exact before d mem
        · exact self
        · exact rest d mem
      refine first.trans (ih first.nodes (fun d mem => ?_) rest)
      rcases List.mem_cons.1 mem with rfl | mem
      · exact here
      · exact before d mem
    · exact .refl nodes

theorem mem_prevs {c : Node} (mem : c ∈ s.prevs a n) : c ∈ s.list a :=
  (List.takeWhile_sublist _).subset (List.mem_reverse.1 mem)

theorem mem_nexts {c : Node} (mem : c ∈ s.nexts a n) : c ∈ s.list a :=
  (List.dropWhile_sublist _).subset (List.mem_of_mem_tail mem)

theorem goes_round (self : n.Among K) (nodes : ∀ c ∈ s.list a, c.Among K) : Goes K a n s (s.round a n) := by
  have down : Goes K a n s (passDown a n (s.prevs a n) (s.nexts a n) s) :=
    goes_passDown self nodes (fun c mem => nodes c (mem_prevs mem)) fun c mem => nodes c (mem_nexts mem)
  exact down.trans (goes_passUp self down.nodes (fun c mem => down.nodes c (mem_prevs mem)) fun c mem => down.nodes c (mem_nexts mem))

/-- The rounds end with the node at its place. -/
theorem goes_rounds (self : n.Among K) (nodes : ∀ c ∈ s.list a, c.Among K) (run : rounds a n k s = some t) :
    Goes K a n s t ∧ t.coord n a = s.layout.xx n a := by
  induction k generalizing s with
  | zero => cases run
  | succ k ih =>
    have round := goes_round self nodes
    obtain ⟨ps, passes, -⟩ := round.passes
    rw [rounds] at run
    split_ifs at run
    · obtain rfl := Option.some.inj run
      have last : Goes K a n (s.round a n) ((s.round a n).setCoord n a ((s.round a n).layout.xx n a)) :=
        ⟨⟨[], .setCoord a n _ _, by simp⟩, round.nodes⟩
      refine ⟨round.trans last, ?_⟩
      simp [Space.setCoord, passes.layout]
    · obtain ⟨rest, place⟩ := ih round.nodes run
      exact ⟨round.trans rest, by rw [place, passes.layout]⟩

theorem goes_updateAxis (self : n.Among K) (nodes : ∀ c ∈ s.list a, c.Among K) (run : s.updateAxis a n = some t) :
    Goes K a n s t ∧ ((a ≠ .y → s.layout.xx n a = s.layout.old n a → s.coord n a = s.layout.xx n a) →
      t.coord n a = s.layout.xx n a) := by
  rw [updateAxis] at run
  split_ifs at run with same
  · obtain rfl := Option.some.inj run
    exact ⟨.refl nodes, fun still => still same.1 same.2⟩
  · obtain ⟨goes, place⟩ := goes_rounds self nodes run
    exact ⟨goes, fun _ => place⟩

theorem Tracked.goes (tracked : Tracked K Q s) (self : n.Among K) (off : n.Among fun e => ¬ Q e) (goes : Goes K a n s t) :
    Tracked K Q t := by
  obtain ⟨ps, passes, among⟩ := goes.passes
  have views : t.views.Mutual ∧ ∀ o e, t.views.Live o e → K e := by
    rw [passes.views]
    refine foldl_keeps (fun v : Views => v.Mutual ∧ ∀ o e, v.Live o e → K e) ps ?_ ⟨tracked.both, tracked.seen⟩
    rintro v p mem ⟨both, seen⟩
    refine ⟨Layout.mutual_pass both s.layout a n p.1 p.2, fun o e live => ?_⟩
    rcases Layout.pass_old_or both.toSound live with live | ⟨b, -, -, -, ⟨same, -⟩ | ⟨-, same⟩⟩
    · exact seen o e live
    · rw [same] at self
      exact self
    · have here := among p mem
      rw [same] at here
      exact here
  refine ⟨views.1, views.2, fun b c mem => ?_, fun e home b => ?_⟩
  · by_cases axis : b = a
    · rw [axis] at mem
      exact goes.nodes c mem
    · rw [passes.list b axis] at mem
      exact tracked.nodes b c mem
  · have other : .entity e ≠ n := by
      rintro rfl
      exact off home
    rw [passes.coord (.entity e) b (.inl other), passes.layout]
    exact tracked.home e home b

/-- The layout, but for what `resetOld` does to a node. -/
theorem Tracked.resetOld (tracked : Tracked K Q s) (off : n.Among fun e => ¬ Q e) : Tracked K Q (s.resetOld n) := by
  have old : ∀ e, Q e → (s.resetOld n).layout.old (.entity e) = s.layout.old (.entity e) := by
    intro e home
    have other : .entity e ≠ n := by
      rintro rfl
      exact off home
    cases n with
    | entity id => exact Function.update_of_ne other _ _
    | boundary b => exact Function.update_of_ne other (s.layout.xx (.boundary b)) _
  have position : (s.resetOld n).layout.position = s.layout.position := by cases n <;> rfl
  rw [resetOld_eq]
  refine ⟨tracked.both, tracked.seen, tracked.nodes, fun e home a => ?_⟩
  show s.coord (.entity e) a = (s.resetOld n).layout.position e a ∧ (s.resetOld n).layout.old (.entity e) a = _
  rw [position, old e home]
  exact tracked.home e home a

/-- **`update`** of any node, and where it comes to stand. -/
theorem Tracked.update (tracked : Tracked K Q s) (run : s.update n = some t) (self : n.Among K) (off : n.Among fun e => ¬ Q e) :
    Tracked K Q t ∧ t.layout = (s.resetOld n).layout ∧
      ∀ a, (a ≠ .y → s.layout.xx n a = s.layout.old n a → s.coord n a = s.layout.xx n a) → t.coord n a = s.layout.xx n a := by
  simp only [Space.update, Option.bind_eq_bind, Option.bind_eq_some_iff] at run
  obtain ⟨x, runX, y, runY, z, runZ, last⟩ := run
  obtain rfl := Option.some.inj last
  obtain ⟨goesX, placeX⟩ := goes_updateAxis self (tracked.nodes .x) runX
  have trackX := tracked.goes self off goesX
  obtain ⟨goesY, placeY⟩ := goes_updateAxis self (trackX.nodes .y) runY
  have trackY := trackX.goes self off goesY
  obtain ⟨goesZ, placeZ⟩ := goes_updateAxis self (trackY.nodes .z) runZ
  have trackZ := trackY.goes self off goesZ
  obtain ⟨_, passX, -⟩ := goesX.passes
  obtain ⟨_, passY, -⟩ := goesY.passes
  obtain ⟨_, passZ, -⟩ := goesZ.passes
  have layout : z.layout = s.layout := passZ.layout.trans (passY.layout.trans passX.layout)
  refine ⟨trackZ.resetOld off, ?_, fun a still => ?_⟩
  · cases n <;> simp only [Space.resetOld, Space.setOld, layout]
  · rw [resetOld_eq]
    show z.coord n a = _
    cases a with
    | x => rw [passZ.coord n .x (.inr (by decide)), passY.coord n .x (.inr (by decide)), placeX still]
    | y => rw [passZ.coord n .y (.inr (by decide)), placeY fun other => absurd rfl other, passX.layout]
    | z =>
      rw [placeZ, passY.layout, passX.layout]
      rw [passY.layout, passX.layout, passY.coord n .z (.inr (by decide)), passX.coord n .z (.inr (by decide))]
      exact still

end Loops

section Operations

variable {K Q : Nat → Prop} {n : Node} {s t : Space} {b : Boundary} {id : Nat}

/-- The nodes of the entities in `Q`, the lists and the views are the same. -/
theorem Tracked.congr (tracked : Tracked K Q s) (list : t.list = s.list) (views : t.views = s.views)
    (position : t.layout.position = s.layout.position)
    (same : ∀ e, Q e → t.coord (.entity e) = s.coord (.entity e) ∧ t.layout.old (.entity e) = s.layout.old (.entity e)) :
    Tracked K Q t := by
  refine ⟨by rw [views]; exact tracked.both, by rw [views]; exact tracked.seen, by rw [list]; exact tracked.nodes, fun e home => ?_⟩
  rw [(same e home).1, (same e home).2, position]
  exact tracked.home e home

/-- An entity whose node is where it is. -/
theorem Tracked.add (tracked : Tracked K Q s)
    (home : ∀ a, s.coord (.entity id) a = s.layout.position id a ∧ s.layout.old (.entity id) a = s.layout.position id a) :
    Tracked K (fun e => e = id ∨ Q e) s := by
  refine ⟨tracked.both, tracked.seen, tracked.nodes, ?_⟩
  rintro e (rfl | there)
  · exact home
  · exact tracked.home e there

/-- An entity that is updated is where its node is, if it was. -/
theorem Tracked.updateSelf (tracked : Tracked K Q s) (self : K id) (off : ¬ Q id)
    (still : ∀ a, a ≠ .y → s.layout.position id a = s.layout.old (.entity id) a → s.coord (.entity id) a = s.layout.position id a)
    (run : s.update (.entity id) = some t) : Tracked K (fun e => e = id ∨ Q e) t := by
  obtain ⟨after, layout, place⟩ := tracked.update run self off
  refine after.add fun a => ⟨?_, ?_⟩
  · rw [place a (still a), layout]
    rfl
  · rw [layout]
    exact congrFun (Function.update_self ..) a

/-- The first node of the lists stands where it is. -/
theorem Tracked.single (tracked : Tracked K Q s) (self : n.Among K) (off : n.Among fun e => ¬ Q e) :
    Tracked K Q { s with list := fun _ => [n], coord := Function.update s.coord n (s.layout.xx n) } := by
  refine ⟨tracked.both, tracked.seen, fun a c mem => ?_, fun e home a => ?_⟩
  · obtain rfl := List.mem_singleton.1 mem
    exact self
  · have other : .entity e ≠ n := by
      rintro rfl
      exact off home
    show Function.update s.coord n _ (.entity e) a = _ ∧ _
    rw [Function.update_of_ne other]
    exact tracked.home e home a

theorem Tracked.head (tracked : Tracked K Q s) (self : n.Among K) (off : n.Among fun e => ¬ Q e) : Tracked K Q (s.head n) := by
  refine ⟨tracked.both, tracked.seen, fun a c mem => ?_, fun e home a => ?_⟩
  · rcases List.mem_cons.1 mem with rfl | mem
    · exact self
    · exact tracked.nodes a c mem
  · have other : .entity e ≠ n := by
      rintro rfl
      exact off home
    rw [coord_head other]
    show s.coord (.entity e) a = s.layout.position e a ∧ Function.update s.layout.old n _ (.entity e) a = _
    rw [Function.update_of_ne other]
    exact tracked.home e home a

/-- **`insert`** of a boundary. -/
theorem Tracked.insert (tracked : Tracked K Q s) (run : s.insert (.boundary b) = some t) : Tracked K Q t := by
  rw [Space.insert] at run
  split_ifs at run with empty
  · obtain rfl := Option.some.inj run
    exact Tracked.resetOld (n := .boundary b) (tracked.single trivial trivial) trivial
  · exact ((tracked.head (n := .boundary b) trivial trivial).update run trivial trivial).1

/-- **`insert`** of an entity that does not stand at `-FLT_MAX`. -/
theorem Tracked.insertEntity (tracked : Tracked K Q s) (self : K id) (off : ¬ Q id)
    (placed : ∀ a, a ≠ .y → s.layout.position id a ≠ -FLT_MAX) (run : s.insert (.entity id) = some t) :
    Tracked K (fun e => e = id ∨ Q e) t := by
  rw [Space.insert] at run
  split_ifs at run with empty
  · obtain rfl := Option.some.inj run
    refine (Tracked.resetOld (n := .entity id) (tracked.single (n := .entity id) self off) off).add fun a => ⟨?_, ?_⟩
    · exact congrFun (Function.update_self ..) a
    · exact congrFun (Function.update_self ..) a
  · refine (tracked.head (n := .entity id) self off).updateSelf self off (fun a axis same => ?_) run
    have old : (s.head (.entity id)).layout.old (.entity id) = fun _ => -FLT_MAX := Function.update_self ..
    rw [old] at same
    exact absurd same (placed a axis)

theorem Tracked.newBoundary (tracked : Tracked K Q s) : Tracked K Q (s.newBoundary b) := by
  refine tracked.congr rfl rfl rfl fun e _ => ?_
  simp [Space.newBoundary]

theorem Tracked.setBoundary (tracked : Tracked K Q s) (old range : ℚ) : Tracked K Q (s.setBoundary b old range) := by
  refine tracked.congr rfl rfl rfl fun e _ => ?_
  simp [Space.setBoundary]

theorem Tracked.install (tracked : Tracked K Q s) {kind : Kind} {range : ℚ} (run : s.install id kind range = some t) :
    Tracked K Q t := by
  simp only [Space.install, Option.bind_eq_bind, Option.bind_eq_some_iff] at run
  obtain ⟨s₁, run₁, s₂, run₂, s₃, run₃, run₄⟩ := run
  have track₁ := (tracked.newBoundary.newBoundary).insert run₁
  have track₂ := track₁.insert run₂
  have track₃ := ((track₂.setBoundary _ _).update run₃ trivial trivial).1
  exact ((track₃.setBoundary _ _).update run₄ trivial trivial).1

theorem Tracked.installAOITrigger (tracked : Tracked K Q s) (run : s.installAOITrigger id = some t) : Tracked K Q t := by
  rcases installAOITrigger_cases s id with eq | ⟨r, eq⟩ | ⟨r, r', eq⟩
  · obtain rfl := Option.some.inj (eq.symm.trans run)
    exact tracked
  · exact tracked.install (eq.symm.trans run)
  · obtain ⟨u, first, second⟩ := Option.bind_eq_some_iff.1 (eq.symm.trans run)
    exact (tracked.install first).install second

theorem Tracked.addEntity (tracked : Tracked K Q s) (self : K id) (off : ¬ Q id)
    (placed : ∀ a, a ≠ .y → s.layout.position id a ≠ -FLT_MAX) (run : s.addEntityAndEnterWorld id = some t) :
    Tracked K (fun e => e = id ∨ Q e) t := by
  simp only [Space.addEntityAndEnterWorld, Option.bind_eq_bind, Option.bind_eq_some_iff] at run
  obtain ⟨u, first, second⟩ := run
  exact (tracked.insertEntity self off placed first).installAOITrigger second

theorem Tracked.updateEntity (tracked : Tracked K Q s) (self : K id) (off : ¬ Q id)
    (still : ∀ a, a ≠ .y → s.layout.position id a = s.layout.old (.entity id) a → s.coord (.entity id) a = s.layout.position id a)
    (run : s.updateEntity id = some t) : Tracked K (fun e => e = id ∨ Q e) t := by
  simp only [Space.updateEntity, Option.bind_eq_bind, Option.bind_eq_some_iff] at run
  obtain ⟨u, first, second⟩ := run
  refine foldlM_keeps (Tracked K fun e => e = id ∨ Q e) ?_ (tracked.updateSelf self off still first) second
  intro s b t tracked run
  exact (tracked.update run trivial trivial).1

theorem Tracked.removeBoundary (tracked : Tracked K Q s) (run : s.removeBoundary b = some t) : Tracked K Q t := by
  obtain ⟨u, update, rfl⟩ := Option.map_eq_some_iff.1 run
  have detached : Tracked K Q (s.detach b) := by
    refine tracked.congr rfl rfl rfl fun e _ => ?_
    simp [Space.detach, Space.onRemove, Space.setOld, Space.setCoord]
  have after := (detached.update update trivial trivial).1
  exact ⟨tracked.both, tracked.seen, after.nodes, after.home⟩

theorem Tracked.uninstall (tracked : Tracked K Q s) {kind : Kind} (run : s.uninstall id kind = some t) : Tracked K Q t := by
  have one : ∀ {b : Boundary} {s t : Space}, Tracked K Q s → s.uninstallBoundary b = some t → Tracked K Q t := by
    intro b s t tracked run
    rw [Space.uninstallBoundary] at run
    split_ifs at run
    · exact tracked.removeBoundary run
    · obtain rfl := Option.some.inj run
      exact tracked
  simp only [Space.uninstall, Option.bind_eq_bind, Option.bind_eq_some_iff] at run
  obtain ⟨u, first, second⟩ := run
  exact one (one tracked first) second

theorem Tracked.onLeaveSpace (tracked : Tracked K Q s) (run : s.onLeaveSpace id = some t) :
    Tracked K Q t ∧ ∀ o e, t.views.Live o e ↔ s.views.Live o e ∧ o ≠ id := by
  have views : ∀ {kind : Kind} {s t : Space}, s.uninstall id kind = some t → t.views = s.views := by
    intro kind s t run
    have one : ∀ {b : Boundary} {s t : Space}, s.uninstallBoundary b = some t → t.views = s.views := by
      intro b s t run
      rw [Space.uninstallBoundary] at run
      split_ifs at run
      · obtain ⟨u, -, rfl⟩ := Option.map_eq_some_iff.1 run
        rfl
      · obtain rfl := Option.some.inj run
        rfl
    simp only [Space.uninstall, Option.bind_eq_bind, Option.bind_eq_some_iff] at run
    obtain ⟨u, first, second⟩ := run
    rw [one second, one first]
  simp only [Space.onLeaveSpace, Space.uninstallAOITrigger, Option.bind_eq_bind, Option.bind_eq_some_iff] at run
  obtain ⟨w, ⟨s₁, run₁, s₂, run₂, last⟩, last'⟩ := run
  obtain rfl := Option.some.inj last
  obtain rfl := Option.some.inj last'
  have after := (tracked.uninstall run₁).uninstall run₂
  obtain ⟨both, live⟩ := after.both.onLeaveSpace id
  refine ⟨⟨both, fun o e seen => after.seen o e ((live o e).1 seen).1, after.nodes, after.home⟩, fun o e => ?_⟩
  rw [← views run₁, ← views run₂]
  exact live o e

/-- A node between smaller and greater ones passes nobody. -/
theorem round_eq {a : Axis} (sorted : ∀ c ∈ s.prevs a n, s.coord c a ≤ s.layout.xx n a)
    (sorted' : ∀ c ∈ s.nexts a n, s.layout.xx n a ≤ s.coord c a) : s.round a n = s := by
  have down : passDown a n (s.prevs a n) (s.nexts a n) s = s := by
    cases prevs : s.prevs a n with
    | nil => rfl
    | cons c prev =>
      have low := sorted c (by rw [prevs]; exact List.mem_cons_self)
      rw [passDown, if_neg (not_lt.2 low)]
  have up : passUp a n (s.prevs a n) (s.nexts a n) s = s := by
    cases nexts : s.nexts a n with
    | nil => rw [passUp]
    | cons c next =>
      have high := sorted' c (by rw [nexts]; exact List.mem_cons_self)
      rw [passUp, if_neg (not_lt.2 high)]
  rw [Space.round, down, up]

/-- **A node that is removed stays where it is**, if it was where the entity is, and the views do not change. -/
theorem update_home {P : Node → Prop} (lists : Lists s P) (here : P (.entity id))
    (home : ∀ a, s.coord (.entity id) a = s.layout.position id a) (run : (s.onRemove (.entity id)).update (.entity id) = some t) :
    t.views = s.views := by
  have old : ∀ a, (s.onRemove (.entity id)).layout.old (.entity id) a = s.coord (.entity id) a := by
    intro a
    simp [Space.onRemove, setOld, setCoord]
  have same : ∀ a, (s.onRemove (.entity id)).layout.xx (.entity id) a = (s.onRemove (.entity id)).layout.old (.entity id) a := by
    intro a
    rw [old, home]
    rfl
  obtain ⟨as, next, list⟩ := List.append_of_mem ((lists.mem .y (.entity id)).2 here)
  obtain ⟨prev, rfl⟩ : ∃ prev : List Node, prev.reverse = as := ⟨as.reverse, List.reverse_reverse as⟩
  have nodup := lists.nodup .y
  have sorted := lists.sorted .y
  rw [list] at nodup sorted
  obtain ⟨-, -, apart⟩ := List.nodup_append.1 nodup
  have once : .entity id ∉ prev := fun mem => apart _ (List.mem_reverse.2 mem) _ List.mem_cons_self rfl
  obtain ⟨-, tail, across⟩ := List.pairwise_append.1 sorted
  have coord : ∀ c, (s.onRemove (.entity id)).coord c .y = s.coord c .y := fun c => coord_setCoord (.inr (by decide))
  have low : ∀ c ∈ (s.onRemove (.entity id)).prevs .y (.entity id),
      (s.onRemove (.entity id)).coord c .y ≤ (s.onRemove (.entity id)).layout.xx (.entity id) .y := by
    intro c mem
    rw [prevs_eq (s := s.onRemove (.entity id)) list once] at mem
    rw [coord]
    exact (across c (List.mem_reverse.2 mem) _ List.mem_cons_self).trans (home .y).le
  have high : ∀ c ∈ (s.onRemove (.entity id)).nexts .y (.entity id),
      (s.onRemove (.entity id)).layout.xx (.entity id) .y ≤ (s.onRemove (.entity id)).coord c .y := by
    intro c mem
    rw [nexts_eq (s := s.onRemove (.entity id)) list once] at mem
    rw [coord]
    exact (home .y).ge.trans ((List.pairwise_cons.1 tail).1 c mem)
  simp only [Space.update, Option.bind_eq_bind, Option.bind_eq_some_iff] at run
  obtain ⟨x, runX, y, runY, z, runZ, last⟩ := run
  obtain rfl := Option.some.inj last
  rw [updateAxis, if_pos ⟨by decide, same .x⟩] at runX
  obtain rfl := Option.some.inj runX
  rw [updateAxis, if_neg (by simp), rounds, round_eq low high, inPlace_of low high, if_pos rfl] at runY
  obtain rfl := Option.some.inj runY
  rw [updateAxis, if_pos ⟨by decide, same .z⟩] at runZ
  obtain rfl := Option.some.inj runZ
  rw [resetOld_eq]
  rfl

/-- **`removeEntity`**: who saw the entity sees it still. -/
theorem Chart.removeEntity_live {P : Node → Prop} {H : Nat → Prop} (chart : Chart s P H) (here : P (.entity id))
    (nodup : (s.watcherNodes id).Nodup) (watched : ∀ b : Boundary, b.origin = id → (b ∈ s.watcherNodes id ↔ P (.boundary b)))
    (origin : ∀ b ∈ s.watcherNodes id, b.origin = id) (tracked : Tracked K Q s) (self : K id) (home : Q id)
    (run : s.removeEntity id = some t) :
    Tracked K (fun e => Q e ∧ e ≠ id) t ∧ ∀ o e, t.views.Live o e ↔ s.views.Live o e ∧ o ≠ id := by
  obtain ⟨s₁, run₁, chart₁, -, -, -⟩ := chart.onLeaveSpace nodup (fun b mem => (watched b (origin b mem)).1 mem) origin
  obtain ⟨track₁, live⟩ := tracked.onLeaveSpace run₁
  simp only [Space.removeEntity, run₁, Option.bind_eq_bind, Option.bind_some, Option.bind_eq_some_iff] at run
  obtain ⟨u, update, last⟩ := run
  obtain rfl := Option.some.inj last
  have views := update_home chart₁.toLists here (fun a => (track₁.home id home a).1) update
  have others : Tracked K (fun e => Q e ∧ e ≠ id) (s₁.onRemove (.entity id)) := by
    refine Tracked.congr ⟨track₁.both, track₁.seen, track₁.nodes, fun e there => track₁.home e there.1⟩ rfl rfl rfl fun e there => ?_
    simp [Space.onRemove, Space.setOld, Space.setCoord, there.2]
  have after := (others.update update self fun there => there.2 rfl).1
  refine ⟨⟨after.both, after.seen, fun a c mem => after.nodes a c (List.mem_filter.1 mem).1, after.home⟩, fun o e => ?_⟩
  show u.views.Live o e ↔ _
  rw [views]
  exact live o e

end Operations

namespace MapManager

/-- An entity is added where `insert` sees that it has come from `-FLT_MAX`, and deleted when nobody else sees it. -/
def Clears (m : MapManager) : Act → Prop
  | .addEntity _ id => ∀ a, a ≠ .y → m.layout.position id a ≠ -FLT_MAX
  | .deleteEntity _ id => ∀ o, o ≠ id → ¬ m.views.Live o id
  | .move _ _ => True

/-- Who is seen is in a space, and who is in a space is where its node is. -/
structure Cleared (m : MapManager) : Prop extends Valid m where
  shown : ∀ o e, m.views.Live o e → m.inSpace e ≠ none
  home : ∀ e, m.inSpace e ≠ none → ∀ a,
    m.coord (.entity e) a = m.layout.position e a ∧ m.layout.old (.entity e) a = m.layout.position e a

variable {m m' : MapManager} {id : Nat} {space_id : Int} {as : List Act}

theorem Cleared.init (position : Nat → Axis → ℚ) (witness : Nat → Witness) : Cleared (.init position witness) := by
  refine ⟨Valid.init position witness, ?_, fun e here => (here rfl).elim⟩
  rintro o e ⟨ref, mem, -⟩
  cases mem

/-- A space of the manager. -/
theorem Cleared.tracked (cleared : Cleared m) (space_id : Int) :
    Tracked (fun e => m.inSpace e ≠ none) (fun e => m.inSpace e ≠ none) (m.load ((m.spaceMap space_id).getD fun _ => [])) := by
  refine ⟨cleared.both, cleared.shown, fun a c mem => ?_, cleared.home⟩
  have holds := ((cleared.toValid.listsOf space_id).mem a c).1 mem
  cases c with
  | entity e =>
    have there : m.inSpace e = some space_id := holds.1
    show m.inSpace e ≠ none
    rw [there]
    nofun
  | boundary b => exact trivial

theorem Cleared.addEntity (cleared : Cleared m) (absent : m.inSpace id = none)
    (placed : ∀ a, a ≠ .y → m.layout.position id a ≠ -FLT_MAX) (valid : Valid m') (next : m.addEntity space_id id = some m') :
    Cleared m' := by
  have tracked : Tracked (fun e => e = id ∨ m.inSpace e ≠ none) (fun e => m.inSpace e ≠ none)
      (m.load ((m.spaceMap space_id).getD fun _ => [])) := by
    have before := cleared.tracked space_id
    refine ⟨before.both, fun o e live => .inr (before.seen o e live), fun a c mem => ?_, before.home⟩
    have there := before.nodes a c mem
    cases c with
    | entity e => exact .inr there
    | boundary b => exact trivial
  simp only [MapManager.addEntity, Option.bind_eq_bind, Option.bind_eq_some_iff] at next
  obtain ⟨t, run, last⟩ := next
  obtain rfl := Option.some.inj last
  have after := tracked.addEntity (.inl rfl) (fun there => there absent) placed run
  have inside : ∀ e, e = id ∨ m.inSpace e ≠ none ↔ Function.update m.inSpace id (some space_id) e ≠ none := by
    intro e
    by_cases same : e = id
    · simp [same]
    · simp [same]
  exact ⟨valid, fun o e live => (inside e).1 (after.seen o e live), fun e there => after.home e ((inside e).2 there)⟩

theorem Cleared.deleteEntity (cleared : Cleared m) (present : m.inSpace id = some space_id) (valid : Valid m')
    (next : m.deleteEntity space_id id = some m') :
    (∀ o e, m'.views.Live o e ↔ m.views.Live o e ∧ o ≠ id) ∧ ((∀ o, o ≠ id → ¬ m.views.Live o id) → Cleared m') := by
  obtain ⟨list, there, chart, node, watched⟩ := cleared.toValid.chart present
  have tracked := cleared.tracked space_id
  have here : m.inSpace id ≠ none := by
    rw [present]
    nofun
  rw [there, Option.getD_some] at tracked
  simp only [MapManager.deleteEntity, there, Option.bind_eq_bind, Option.bind_eq_some_iff, Option.map_eq_some_iff] at next
  obtain ⟨_, ⟨t, run, rfl⟩, last⟩ := next
  obtain rfl := Option.some.inj last
  obtain ⟨after, live⟩ := chart.removeEntity_live node (cleared.nodup id) watched (cleared.origin id) tracked here here run
  refine ⟨live, fun unseen => ⟨valid, fun o e seen => ?_, fun e there => ?_⟩⟩
  · obtain ⟨old, other⟩ := (live o e).1 seen
    have different : e ≠ id := by
      rintro rfl
      exact unseen o other old
    show Function.update m.inSpace id none e ≠ none
    rw [Function.update_of_ne different]
    exact cleared.shown o e old
  · have there : Function.update m.inSpace id none e ≠ none := there
    have different : e ≠ id := by
      rintro rfl
      exact there (Function.update_self ..)
    rw [Function.update_of_ne different] at there
    exact after.home e ⟨there, different⟩

theorem Cleared.moveEntity (cleared : Cleared m) {pos : Axis → ℚ} (valid : Valid m') (next : m.moveEntity id pos = some m') :
    Cleared m' := by
  have others : ∀ e, e ≠ id → Function.update m.layout.position id (moved (m.layout.position id) pos) e = m.layout.position e :=
    fun e other => Function.update_of_ne other _ _
  rw [MapManager.moveEntity] at next
  cases present : m.inSpace id with
  | none =>
    simp only [present] at next
    obtain rfl := Option.some.inj next
    refine ⟨valid, cleared.shown, fun e there a => ?_⟩
    have other : e ≠ id := by
      rintro rfl
      exact there present
    show m.coord (.entity e) a = Function.update m.layout.position id _ e a ∧
      m.layout.old (.entity e) a = Function.update m.layout.position id _ e a
    rw [others e other]
    exact cleared.home e there a
  | some space_id =>
    simp only [present] at next
    obtain ⟨t, run, rfl⟩ := Option.map_eq_some_iff.1 next
    have here : m.inSpace id ≠ none := by
      rw [present]
      nofun
    have before := cleared.tracked space_id
    have tracked : Tracked (fun e => m.inSpace e ≠ none) (fun e => m.inSpace e ≠ none ∧ e ≠ id)
        (load { m with layout := { m.layout with
          position := Function.update m.layout.position id (moved (m.layout.position id) pos) } }
          ((m.spaceMap space_id).getD fun _ => [])) := by
      refine ⟨before.both, before.seen, before.nodes, fun e there a => ?_⟩
      show m.coord (.entity e) a = Function.update m.layout.position id _ e a ∧
        m.layout.old (.entity e) a = Function.update m.layout.position id _ e a
      rw [others e there.2]
      exact cleared.home e there.1 a
    have after := tracked.updateEntity here (fun there => there.2 rfl) (fun a _ same => ?_) run
    · refine ⟨valid, after.seen, fun e there => after.home e ?_⟩
      by_cases same : e = id
      · exact .inl same
      · exact .inr ⟨there, same⟩
    · obtain ⟨coord, old⟩ := cleared.home id here a
      exact coord.trans (old.symm.trans same.symm)

theorem Cleared.step (cleared : Cleared m) {act : Act} (clears : m.Clears act) (next : m.step act = some m') : Cleared m' := by
  have valid := cleared.toValid.of_step next
  cases act with
  | addEntity space_id id =>
    obtain ⟨absent, run⟩ := Option.ite_none_right_eq_some.1 next
    exact cleared.addEntity absent clears valid run
  | deleteEntity space_id id =>
    obtain ⟨present, run⟩ := Option.ite_none_right_eq_some.1 next
    exact (cleared.deleteEntity present valid run).2 clears
  | move id pos => exact cleared.moveEntity valid next

/-- **Leaving the space clears all views** in every run in which entities are deleted when nobody else sees them: whoever is
seen is in a space. An entity that somebody else sees is not cleared from the views. -/
theorem views_cleared {position : Nat → Axis → ℚ} {witness : Nat → Witness}
    (run : Runs step Clears (init position witness) as m) :
    (∀ o e, m.inSpace e = none → ¬ m.views.Live o e) ∧
    ∀ space_id id m', m.inSpace id = some space_id → m.step (.deleteEntity space_id id) = some m' →
      ((∀ o, o ≠ id → ¬ m'.views.Live o id) ↔ ∀ o, o ≠ id → ¬ m.views.Live o id) := by
  have cleared := run.invariant Cleared (.init position witness) fun _ _ _ cleared clears next => cleared.step clears next
  refine ⟨fun o e absent live => cleared.shown o e live absent, fun space_id id m' present next => ?_⟩
  have valid := cleared.toValid.of_step next
  obtain ⟨-, deleted⟩ := Option.ite_none_right_eq_some.1 next
  obtain ⟨live, -⟩ := cleared.deleteEntity present valid deleted
  refine forall_congr' fun o => imp_congr_right fun other => not_congr ?_
  rw [live]
  exact and_iff_left other

/-- The entities stand too far apart to see each other. -/
def apart : MapManager := init (fun id _ => 100 * id) fun _ => newWitness 5 1

/-- `Clears` of an addition. -/
def checkAdd (m : MapManager) : Act → Bool
  | .addEntity _ id => m.layout.position id .x ≠ -FLT_MAX ∧ m.layout.position id .z ≠ -FLT_MAX
  | _ => false

theorem clears_of_checkAdd {act : Act} (checked : m.checkAdd act = true) : m.Clears act := by
  cases act with
  | addEntity space_id id =>
    obtain ⟨x, z⟩ := of_decide_eq_true checked
    intro a axis
    cases a with
    | x => exact x
    | y => exact absurd rfl axis
    | z => exact z
  | deleteEntity => cases checked
  | move => cases checked

/-- Two entities come, and the second one leaves. -/
theorem views_cleared_apart : ∃ m, Runs step Clears apart [.addEntity 0 0, .addEntity 0 1, .deleteEntity 0 1] m ∧
    m.inSpace 1 = none ∧ ¬ m.views.Live 0 1 := by
  obtain ⟨m, run, holds⟩ : ∃ m, Runs step Clears apart [.addEntity 0 0, .addEntity 0 1] m ∧
      decide (m.views.witnesses 1 = [] ∧ m.inSpace 1 = some 0) = true :=
    Runs.exists_of_checked Clears (fun _ _ => clears_of_checkAdd) (by decide +kernel)
  obtain ⟨unseen, present⟩ := of_decide_eq_true holds
  have valid := valid_of_runs (run.mono fun _ _ _ => trivial)
  have clears : m.Clears (.deleteEntity 0 1) := by
    intro o _ live
    have listed := valid.both.once o 1 live
    rw [unseen] at listed
    cases listed
  obtain ⟨m', next, -⟩ := valid.step.2.1 0 1 present
  obtain ⟨m'', whole, absent⟩ : ∃ m, Runs step (fun _ _ => True) apart [.addEntity 0 0, .addEntity 0 1, .deleteEntity 0 1] m ∧
      m.inSpace 1 = none := by
    apply Runs.exists_of_decide
    decide +kernel
  have run' := run.snoc clears next
  obtain rfl := run'.unique whole
  exact ⟨m', run', absent, (views_cleared run').1 0 1 absent⟩

/-- The first entity sees the second one, which leaves. -/
theorem view_kept : ∃ m, Runs step (fun _ _ => True) row [.addEntity 0 0, .addEntity 0 1, .deleteEntity 0 1] m ∧
    m.inSpace 1 = none ∧ m.views.Live 0 1 := by
  obtain ⟨m, run, absent, live⟩ : ∃ m, Runs step (fun _ _ => True) row [.addEntity 0 0, .addEntity 0 1, .deleteEntity 0 1] m ∧
      m.inSpace 1 = none ∧ ∃ ref ∈ m.views.aoiEntities 0, ref.id = 1 ∧ ref.pEntity = some 1 ∧ ref.leavePending = false := by
    apply Runs.exists_of_decide
    decide +kernel
  exact ⟨m, run, absent, live⟩

end MapManager

end GameServer.Aoi

import GameServer.Aoi.Views
import GameServer.Lib.Sweep

/-!
# What `CoordinateSystem::update` does

For each axis `update` sweeps a node through a sorted list. One round of `while (true)` is
enough (`rounds_eq`), the list is sorted again, and the views have seen a pass of every node
that stood on the wrong side (`update_spec`).
-/

namespace GameServer.Aoi

open GameServer.Lib Space

/-- What the loops do on one axis: `ps` are the nodes passed, in order, and whether they were
passed on the way up. -/
structure Passes (a : Axis) (n : Node) (ps : List (Node × Bool)) (s t : Space) : Prop where
  layout : t.layout = s.layout
  watcherNodes : t.watcherNodes = s.watcherNodes
  views : t.views = ps.foldl (fun v p => s.layout.pass a n p.1 p.2 v) s.views
  coord : ∀ c b, c ≠ n ∨ b ≠ a → t.coord c b = s.coord c b
  list : ∀ b, b ≠ a → t.list b = s.list b

section Loops

variable {a : Axis} {n c : Node} {s t u : Space} {ps qs : List (Node × Bool)} {prev next : List Node} {key : Node → ℚ} {v : ℚ}

theorem Passes.refl (a : Axis) (n : Node) (s : Space) : Passes a n [] s s :=
  ⟨rfl, rfl, rfl, fun _ _ _ => rfl, fun _ _ => rfl⟩

theorem Passes.trans (first : Passes a n ps s t) (second : Passes a n qs t u) : Passes a n (ps ++ qs) s u where
  layout := second.layout.trans first.layout
  watcherNodes := second.watcherNodes.trans first.watcherNodes
  views := by rw [second.views, first.views, first.layout, List.foldl_append]
  coord c b other := (second.coord c b other).trans (first.coord c b other)
  list b other := (second.list b other).trans (first.list b other)

theorem coord_setCoord {b : Axis} (other : c ≠ n ∨ b ≠ a) : (s.setCoord n a v).coord c b = s.coord c b := by
  unfold setCoord
  rcases other with node | axis
  · exact congrFun (Function.update_of_ne node _ _) b
  · by_cases node : c = n
    · subst node
      simp [axis]
    · exact congrFun (Function.update_of_ne node _ _) b

theorem Passes.setCoord (a : Axis) (n : Node) (s : Space) (v : ℚ) : Passes a n [] s (s.setCoord n a v) :=
  ⟨rfl, rfl, rfl, fun _ _ other => coord_setCoord other, fun _ _ => rfl⟩

theorem Passes.pass (a : Axis) (n c : Node) (up : Bool) (nodes : List Node) (s : Space) :
    Passes a n [(c, up)] s (s.pass a n c up nodes) where
  layout := rfl
  watcherNodes := rfl
  views := rfl
  coord _ _ other := coord_setCoord other
  list _ other := Function.update_of_ne other _ _

theorem list_pass (up : Bool) (nodes : List Node) : (s.pass a n c up nodes).list a = nodes :=
  Function.update_self _ _ _

/-- The loop down the list. -/
theorem passDown_spec (once : n ∉ prev) (target : s.layout.xx n a = v) (keys : ∀ c ∈ prev, s.coord c a = key c)
    (list : s.list a = prev.reverse ++ n :: next) :
    Passes a n ((passedDown key v prev).map fun c => (c, false)) s (passDown a n prev next s) ∧
      (passDown a n prev next s).list a =
        (prev.dropWhile fun c => v < key c).reverse ++ n :: ((passedDown key v prev).reverse ++ next) := by
  induction prev generalizing next s with
  | nil => exact ⟨.refl a n s, list⟩
  | cons c prev ih =>
    have other : c ≠ n := fun same => once (same ▸ List.mem_cons_self)
    have key' : s.coord c a = key c := keys c List.mem_cons_self
    rw [passDown, key', target]
    by_cases high : v < key c
    · have first := Passes.pass a n c false (prev.reverse ++ n :: c :: next) s
      have keys' : ∀ d ∈ prev, (s.pass a n c false (prev.reverse ++ n :: c :: next)).coord d a = key d := by
        intro d mem
        have other' : d ≠ n := fun same => once (same ▸ List.mem_cons_of_mem c mem)
        rw [first.coord d a (.inl other'), keys d (List.mem_cons_of_mem c mem)]
      obtain ⟨passes, list'⟩ := ih (s := s.pass a n c false (prev.reverse ++ n :: c :: next))
        (fun mem => once (List.mem_cons_of_mem c mem)) target keys' (list_pass _ _)
      have taken : passedDown key v (c :: prev) = c :: passedDown key v prev := List.takeWhile_cons_of_pos (by simpa using high)
      have left : (c :: prev).dropWhile (fun c => decide (v < key c)) = prev.dropWhile fun c => decide (v < key c) :=
        List.dropWhile_cons_of_pos (by simpa using high)
      rw [if_pos high, taken, left]
      refine ⟨first.trans passes, ?_⟩
      rw [list']
      simp
    · have taken : passedDown key v (c :: prev) = [] := List.takeWhile_cons_of_neg (by simpa using high)
      have left : (c :: prev).dropWhile (fun c => decide (v < key c)) = c :: prev :=
        List.dropWhile_cons_of_neg (by simpa using high)
      rw [if_neg high, taken, left]
      exact ⟨.refl a n s, list⟩

/-- The loop up the list. -/
theorem passUp_spec (once : n ∉ next) (target : s.layout.xx n a = v) (keys : ∀ c ∈ next, s.coord c a = key c)
    (list : s.list a = prev.reverse ++ n :: next) :
    Passes a n ((passedUp key v next).map fun c => (c, true)) s (passUp a n prev next s) ∧
      (passUp a n prev next s).list a =
        ((passedUp key v next).reverse ++ prev).reverse ++ n :: next.dropWhile fun c => key c < v := by
  induction next generalizing prev s with
  | nil =>
    rw [passUp]
    exact ⟨.refl a n s, list⟩
  | cons c next ih =>
    have other : c ≠ n := fun same => once (same ▸ List.mem_cons_self)
    have key' : s.coord c a = key c := keys c List.mem_cons_self
    rw [passUp, key', target]
    by_cases low : key c < v
    · have first := Passes.pass a n c true ((c :: prev).reverse ++ n :: next) s
      have keys' : ∀ d ∈ next, (s.pass a n c true ((c :: prev).reverse ++ n :: next)).coord d a = key d := by
        intro d mem
        have other' : d ≠ n := fun same => once (same ▸ List.mem_cons_of_mem c mem)
        rw [first.coord d a (.inl other'), keys d (List.mem_cons_of_mem c mem)]
      obtain ⟨passes, list'⟩ := ih (s := s.pass a n c true ((c :: prev).reverse ++ n :: next))
        (fun mem => once (List.mem_cons_of_mem c mem)) target keys' (list_pass _ _)
      have taken : passedUp key v (c :: next) = c :: passedUp key v next := List.takeWhile_cons_of_pos (by simpa using low)
      have left : (c :: next).dropWhile (fun c => decide (key c < v)) = next.dropWhile fun c => decide (key c < v) :=
        List.dropWhile_cons_of_pos (by simpa using low)
      rw [if_pos low, taken, left]
      refine ⟨first.trans passes, ?_⟩
      rw [list']
      simp
    · have taken : passedUp key v (c :: next) = [] := List.takeWhile_cons_of_neg (by simpa using low)
      have left : (c :: next).dropWhile (fun c => decide (key c < v)) = c :: next :=
        List.dropWhile_cons_of_neg (by simpa using low)
      rw [if_neg low, taken, left]
      exact ⟨.refl a n s, list⟩

theorem prevs_eq (list : s.list a = prev.reverse ++ n :: next) (once : n ∉ prev) : s.prevs a n = prev := by
  have all : ∀ c ∈ prev.reverse, decide (c ≠ n) = true := by
    intro c mem
    have other : c ≠ n := fun same => once (same ▸ List.mem_reverse.1 mem)
    simpa using other
  rw [prevs, list, List.takeWhile_append_of_pos all, List.takeWhile_cons_of_neg (by simp)]
  simp

theorem nexts_eq (list : s.list a = prev.reverse ++ n :: next) (once : n ∉ prev) : s.nexts a n = next := by
  have all : ∀ c ∈ prev.reverse, decide (c ≠ n) = true := by
    intro c mem
    have other : c ≠ n := fun same => once (same ▸ List.mem_reverse.1 mem)
    simpa using other
  rw [nexts, list, List.dropWhile_append_of_pos all, List.dropWhile_cons_of_neg (by simp)]
  rfl

/-- One round sweeps the node through its list. -/
theorem round_spec (nodup : (s.list a).Nodup) (list : s.list a = prev.reverse ++ n :: next) :
    let key := fun c => s.coord c a
    let v := s.layout.xx n a
    let middle := (passedDown key v prev).reverse ++ next
    Passes a n ((passedDown key v prev).map (fun c => (c, false)) ++ (passedUp key v middle).map fun c => (c, true)) s
        (s.round a n) ∧
      (s.round a n).list a = ((passedUp key v middle).reverse ++ prev.dropWhile fun c => v < key c).reverse ++
        n :: middle.dropWhile fun c => key c < v := by
  intro key v middle
  rw [list] at nodup
  obtain ⟨-, nodup', apart⟩ := List.nodup_append.1 nodup
  have oncePrev : n ∉ prev := fun mem => apart n (List.mem_reverse.2 mem) n List.mem_cons_self rfl
  have onceNext : n ∉ next := (List.nodup_cons.1 nodup').1
  have keysPrev : ∀ c ∈ prev, s.coord c a = key c := fun _ _ => rfl
  obtain ⟨down, list'⟩ := passDown_spec (v := v) oncePrev rfl keysPrev list
  have onceLeft : n ∉ prev.dropWhile fun c => decide (v < key c) :=
    fun mem => oncePrev ((List.dropWhile_sublist _).subset mem)
  have onceMiddle : n ∉ middle := by
    intro mem
    rcases List.mem_append.1 mem with mem | mem
    · exact oncePrev ((List.takeWhile_sublist _).subset (List.mem_reverse.1 mem))
    · exact onceNext mem
  have keys : ∀ c ∈ middle, (passDown a n prev next s).coord c a = key c := by
    intro c mem
    exact down.coord c a (.inl fun same => onceMiddle (same ▸ mem))
  have target : (passDown a n prev next s).layout.xx n a = v := by rw [down.layout]
  obtain ⟨up, list''⟩ := passUp_spec onceMiddle target keys list'
  simp only [Space.round]
  rw [prevs_eq list oncePrev, nexts_eq list oncePrev, prevs_eq list' onceLeft, nexts_eq list' onceLeft]
  exact ⟨down.trans up, list''⟩

end Loops

/-- A node in a sorted list that may be swept; if `update` sees no change, it is in place. -/
structure Ready (s : Space) (n : Node) (a : Axis) : Prop where
  nodup : (s.list a).Nodup
  mem : n ∈ s.list a
  sorted : (s.list a).Pairwise fun c d => s.coord c a ≤ s.coord d a
  fresh : s.layout.xx n a = s.layout.old n a → s.coord n a = s.layout.xx n a

/-- The node is in its place on one axis. -/
structure Lined (a : Axis) (n : Node) (s t : Space) : Prop where
  self : t.coord n a = s.layout.xx n a
  perm : (t.list a).Perm (s.list a)
  others : (t.list a).filter (· ≠ n) = (s.list a).filter (· ≠ n)
  sorted : (t.list a).Pairwise fun c d => t.coord c a ≤ t.coord d a
  kept : ∀ c, Before (s.list a) n c → s.layout.xx n a ≤ s.coord c a → Before (t.list a) n c

/-- The node is in its place on one axis, and has passed the nodes on the wrong side of it. -/
structure Placed (a : Axis) (n : Node) (ps : List (Node × Bool)) (s t : Space) : Prop extends
    Passes a n ps s t, Lined a n s t where
  passed : ∀ p ∈ ps, p.1 ∈ s.list a
  up : ∀ c, Before (s.list a) n c → s.coord c a < s.layout.xx n a → (c, true) ∈ ps
  down : ∀ c, Before (s.list a) c n → s.layout.xx n a < s.coord c a → (c, false) ∈ ps

section Axes

variable {a : Axis} {n c : Node} {s t : Space}

/-- Nothing to do on an axis. -/
theorem Ready.placed (ready : Ready s n a) (same : s.layout.xx n a = s.layout.old n a) : Placed a n [] s s := by
  have self := ready.fresh same
  refine ⟨.refl a n s, ⟨self, .refl _, rfl, ready.sorted, fun c before _ => before⟩, nofun, ?_, ?_⟩
  · intro c before low
    have le : s.coord n a ≤ s.coord c a := before.rel ready.sorted
    exact absurd (self ▸ le) (not_le.2 low)
  · intro c before high
    have le : s.coord c a ≤ s.coord n a := before.rel ready.sorted
    exact absurd (self ▸ le) (not_le.2 high)

theorem filter_split {as bs : List Node} (nodup : (as ++ n :: bs).Nodup) : (as ++ n :: bs).filter (· ≠ n) = as ++ bs := by
  obtain ⟨-, nodup', apart⟩ := List.nodup_append.1 nodup
  have left : ∀ c ∈ as, decide (c ≠ n) = true := fun c mem => by simpa using apart c mem n List.mem_cons_self
  have right : ∀ c ∈ bs, decide (c ≠ n) = true := by
    intro c mem
    have other : c ≠ n := fun same => (List.nodup_cons.1 nodup').1 (same ▸ mem)
    simpa using other
  rw [List.filter_append, List.filter_cons_of_neg (by simp), List.filter_eq_self.2 left, List.filter_eq_self.2 right]

theorem inPlace_of (low : ∀ c ∈ s.prevs a n, s.coord c a ≤ s.layout.xx n a)
    (high : ∀ c ∈ s.nexts a n, s.layout.xx n a ≤ s.coord c a) : s.inPlace a n = true := by
  unfold inPlace
  rw [Bool.and_eq_true]
  constructor
  · split
    · rfl
    · next c prev eq =>
      have le := low c (by rw [eq]; exact List.mem_cons_self)
      simpa using le
  · split
    · rfl
    · next c next eq =>
      have le := high c (by rw [eq]; exact List.mem_cons_self)
      simpa using le

/-- A node between smaller and greater ones is in place. -/
theorem placed_of_swept {t : Space} {ps : List (Node × Bool)} {prev next prev' next' : List Node}
    (nodup : (s.list a).Nodup) (sorted : ((s.list a).filter (· ≠ n)).Pairwise fun c d => s.coord c a ≤ s.coord d a)
    (list : s.list a = prev.reverse ++ n :: next) (passes : Passes a n ps s t)
    (list' : t.list a = prev'.reverse ++ n :: next')
    (swept : Swept (fun c => s.coord c a) (s.layout.xx n a) prev next prev' next') (passed : ∀ p ∈ ps, p.1 ∈ s.list a)
    (up : ∀ c ∈ next, s.coord c a < s.layout.xx n a → (c, true) ∈ ps)
    (down : ∀ c ∈ prev, s.layout.xx n a < s.coord c a → (c, false) ∈ ps) :
    t.inPlace a n = true ∧ Placed a n ps s (t.setCoord n a (s.layout.xx n a)) := by
  have perm : (t.list a).Perm (s.list a) := by
    rw [list', list]
    refine List.perm_middle.trans ?_
    rw [swept.same]
    exact List.perm_middle.symm
  have nodup' : (prev'.reverse ++ n :: next').Nodup := list' ▸ perm.nodup_iff.2 nodup
  obtain ⟨-, tail, apart⟩ := List.nodup_append.1 nodup'
  have oncePrev : ∀ c ∈ prev', c ≠ n := fun c mem => apart c (List.mem_reverse.2 mem) n List.mem_cons_self
  have onceNext : ∀ c ∈ next', c ≠ n := fun c mem same => (List.nodup_cons.1 tail).1 (same ▸ mem)
  have once : n ∉ prev' := fun mem => oncePrev n mem rfl
  have self : (t.setCoord n a (s.layout.xx n a)).coord n a = s.layout.xx n a := by simp [setCoord]
  have final := passes.trans (Passes.setCoord a n t (s.layout.xx n a))
  rw [List.append_nil] at final
  rw [list] at nodup
  refine ⟨?_, final, ⟨self, perm, ?_, ?_, ?_⟩, passed, ?_, ?_⟩
  · apply inPlace_of
    · intro c mem
      rw [prevs_eq list' once] at mem
      rw [passes.coord c a (.inl (oncePrev c mem)), passes.layout]
      exact swept.low c mem
    · intro c mem
      rw [nexts_eq list' once] at mem
      rw [passes.coord c a (.inl (onceNext c mem)), passes.layout]
      exact swept.high c mem
  · show (t.list a).filter (· ≠ n) = _
    rw [list', list, filter_split nodup', filter_split nodup, swept.same]
  · show (t.list a).Pairwise _
    have low : ∀ c ∈ prev'.reverse, (t.setCoord n a (s.layout.xx n a)).coord c a ≤ s.layout.xx n a := by
      intro c mem
      have mem := List.mem_reverse.1 mem
      rw [final.coord c a (.inl (oncePrev c mem))]
      exact swept.low c mem
    have high : ∀ c ∈ next', s.layout.xx n a ≤ (t.setCoord n a (s.layout.xx n a)).coord c a := by
      intro c mem
      rw [final.coord c a (.inl (onceNext c mem))]
      exact swept.high c mem
    have rest : (prev'.reverse ++ next').Pairwise fun c d =>
        (t.setCoord n a (s.layout.xx n a)).coord c a ≤ (t.setCoord n a (s.layout.xx n a)).coord d a := by
      rw [list, filter_split nodup, ← swept.same] at sorted
      refine List.Pairwise.imp_of_mem ?_ sorted
      intro c d memc memd le
      have other : ∀ c ∈ prev'.reverse ++ next', c ≠ n := by
        intro c mem
        rcases List.mem_append.1 mem with mem | mem
        · exact oncePrev c (List.mem_reverse.1 mem)
        · exact onceNext c mem
      rw [final.coord c a (.inl (other c memc)), final.coord d a (.inl (other d memd))]
      exact le
    obtain ⟨sortedPrev, sortedNext, across⟩ := List.pairwise_append.1 rest
    rw [list', List.pairwise_append, List.pairwise_cons]
    refine ⟨sortedPrev, ⟨fun c mem => by rw [self]; exact high c mem, sortedNext⟩, ?_⟩
    intro c memc d memd
    rcases List.mem_cons.1 memd with rfl | memd
    · rw [self]
      exact low c memc
    · exact across c memc d memd
  · intro c before high
    show Before (t.list a) n c
    rw [list] at before
    rw [list']
    exact before_of_mem_right (swept.rest c (before.mem_right nodup) high)
  · intro c before
    rw [list] at before
    exact up c (before.mem_right nodup)
  · intro c before
    rw [list] at before
    exact down c (List.mem_reverse.1 (before.mem_left nodup))

/-- One round is enough; the node itself may be out of order. -/
theorem rounds_eq (nodup : (s.list a).Nodup) (mem : n ∈ s.list a)
    (sorted : ((s.list a).filter (· ≠ n)).Pairwise fun c d => s.coord c a ≤ s.coord d a) (k : Nat) :
    ∃ t ps, rounds a n (k + 1) s = some t ∧ Placed a n ps s t := by
  obtain ⟨as, next, list⟩ := List.append_of_mem mem
  obtain ⟨prev, rfl⟩ : ∃ prev : List Node, prev.reverse = as := ⟨as.reverse, List.reverse_reverse as⟩
  obtain ⟨passes, list'⟩ := round_spec nodup list
  have others : (prev.reverse ++ next).Pairwise fun c d => s.coord c a ≤ s.coord d a := by
    rw [← filter_split (list ▸ nodup), ← list]
    exact sorted
  have swept := sweep (fun c => s.coord c a) (s.layout.xx n a) others
  have down : ∀ c ∈ passedDown (fun c => s.coord c a) (s.layout.xx n a) prev, c ∈ s.list a := by
    intro c mem
    rw [list]
    exact List.mem_append_left _ (List.mem_reverse.2 ((List.takeWhile_sublist _).subset mem))
  have up : ∀ c ∈ (passedDown (fun c => s.coord c a) (s.layout.xx n a) prev).reverse ++ next, c ∈ s.list a := by
    intro c mem
    rcases List.mem_append.1 mem with mem | mem
    · exact down c (List.mem_reverse.1 mem)
    · rw [list]
      exact List.mem_append_right _ (List.mem_cons_of_mem n mem)
  obtain ⟨inPlace, placed⟩ := placed_of_swept nodup sorted list passes list' swept
    (fun p mem => by
      rcases List.mem_append.1 mem with passed | passed
      · obtain ⟨c, here, rfl⟩ := List.mem_map.1 passed
        exact down c here
      · obtain ⟨c, here, rfl⟩ := List.mem_map.1 passed
        exact up c ((List.takeWhile_sublist _).subset here))
    (fun c mem low => List.mem_append_right _ (List.mem_map.2 ⟨c, swept.up c mem low, rfl⟩))
    (fun c mem high => List.mem_append_left _ (List.mem_map.2 ⟨c, swept.down c mem high, rfl⟩))
  refine ⟨_, _, ?_, placed⟩
  rw [rounds, inPlace, if_pos rfl, passes.layout]

theorem updateAxis_spec (ready : Ready s n a) : ∃ t ps, s.updateAxis a n = some t ∧ Placed a n ps s t := by
  unfold updateAxis
  split_ifs with same
  · exact ⟨s, [], rfl, ready.placed same.2⟩
  · exact rounds_eq ready.nodup ready.mem (ready.sorted.sublist List.filter_sublist) _

/-- What happens on one axis leaves a node ready on the others. -/
theorem Passes.ready {b : Axis} {ps : List (Node × Bool)} (passes : Passes a n ps s t) (axis : b ≠ a) (ready : Ready s n b) :
    Ready t n b := by
  have coord : ∀ c, t.coord c b = s.coord c b := fun c => passes.coord c b (.inr axis)
  obtain ⟨nodup, mem, sorted, fresh⟩ := ready
  rw [← passes.list b axis] at nodup mem sorted
  refine ⟨nodup, mem, ?_, ?_⟩
  · simpa only [coord] using sorted
  · rw [passes.layout, coord]
    exact fresh

theorem Lined.congr {s' t' : Space} (lined : Lined a n s t) (layout : s'.layout = s.layout) (list : s'.list a = s.list a)
    (coord : ∀ c, s'.coord c a = s.coord c a) (list' : t'.list a = t.list a) (coord' : ∀ c, t'.coord c a = t.coord c a) :
    Lined a n s' t' := by
  obtain ⟨self, perm, others, sorted, kept⟩ := lined
  constructor
  · rw [coord', layout, self]
  · rw [list', list]
    exact perm
  · rw [list', list]
    exact others
  · rw [list']
    simpa only [coord'] using sorted
  · rw [list, list', layout]
    simpa only [coord] using kept

/-- What `update` does on some of the axes; `ps` are the nodes passed. -/
structure Updates (axes : List Axis) (n : Node) (ps : List (Axis × Node × Bool)) (s t : Space) : Prop where
  layout : t.layout = s.layout
  watcherNodes : t.watcherNodes = s.watcherNodes
  views : t.views = ps.foldl (fun v p => s.layout.pass p.1 n p.2.1 p.2.2 v) s.views
  coord : ∀ c a, c ≠ n ∨ a ∉ axes → t.coord c a = s.coord c a
  list : ∀ a, a ∉ axes → t.list a = s.list a
  lined : ∀ a ∈ axes, Lined a n s t
  passed : ∀ p ∈ ps, p.2.1 ∈ s.list p.1
  up : ∀ a ∈ axes, ∀ c, Before (s.list a) n c → s.coord c a < s.layout.xx n a → (a, c, true) ∈ ps
  down : ∀ a ∈ axes, ∀ c, Before (s.list a) c n → s.layout.xx n a < s.coord c a → (a, c, false) ∈ ps

theorem updates_spec (axes : List Axis) (nodup : axes.Nodup) (ready : ∀ a ∈ axes, Ready s n a) :
    ∃ t ps, axes.foldlM (fun s a => s.updateAxis a n) s = some t ∧ Updates axes n ps s t := by
  induction axes generalizing s with
  | nil => exact ⟨s, [], rfl, rfl, rfl, rfl, fun _ _ _ => rfl, fun _ _ => rfl, nofun, nofun, nofun, nofun⟩
  | cons a axes ih =>
    obtain ⟨once, nodup⟩ := List.nodup_cons.1 nodup
    obtain ⟨t, ps, first, placed⟩ := updateAxis_spec (ready a List.mem_cons_self)
    have axis : ∀ b ∈ axes, b ≠ a := fun b mem same => once (same ▸ mem)
    obtain ⟨u, qs, rest, updates⟩ := ih (s := t) nodup fun b mem =>
      placed.toPasses.ready (axis b mem) (ready b (List.mem_cons_of_mem a mem))
    have coord : ∀ b ∈ axes, ∀ c, t.coord c b = s.coord c b := fun b mem c => placed.coord c b (.inr (axis b mem))
    have list : ∀ b ∈ axes, t.list b = s.list b := fun b mem => placed.list b (axis b mem)
    refine ⟨u, ps.map (fun p => (a, p)) ++ qs, ?_, updates.layout.trans placed.layout,
      updates.watcherNodes.trans placed.watcherNodes, ?_, ?_, ?_, ?_, ?_, ?_, ?_⟩
    · rw [List.foldlM_cons, first]
      exact rest
    · rw [updates.views, placed.views, placed.layout, List.foldl_append, List.foldl_map]
    · rintro c b other
      rw [List.mem_cons, not_or] at other
      rw [updates.coord c b (other.imp_right And.right), placed.coord c b (other.imp_right And.left)]
    · intro b other
      rw [List.mem_cons, not_or] at other
      rw [updates.list b other.2, placed.list b other.1]
    · intro b mem
      rcases List.mem_cons.1 mem with rfl | mem
      · exact placed.toLined.congr rfl rfl (fun _ => rfl) (updates.list b once) fun c => updates.coord c b (.inr once)
      · exact (updates.lined b mem).congr placed.layout.symm (list b mem).symm (fun c => (coord b mem c).symm) rfl
          fun _ => rfl
    · intro p mem
      rcases List.mem_append.1 mem with first | rest
      · obtain ⟨q, here, rfl⟩ := List.mem_map.1 first
        exact placed.passed q here
      · have here := updates.passed p rest
        by_cases axis : p.1 = a
        · rw [axis] at here ⊢
          exact placed.perm.mem_iff.1 here
        · rw [placed.list p.1 axis] at here
          exact here
    · intro b mem c before low
      rcases List.mem_cons.1 mem with rfl | mem
      · exact List.mem_append_left _ (List.mem_map.2 ⟨_, placed.up c before low, rfl⟩)
      · rw [← list b mem] at before
        rw [← coord b mem, ← placed.layout] at low
        exact List.mem_append_right _ (updates.up b mem c before low)
    · intro b mem c before high
      rcases List.mem_cons.1 mem with rfl | mem
      · exact List.mem_append_left _ (List.mem_map.2 ⟨_, placed.down c before high, rfl⟩)
      · rw [← list b mem] at before
        rw [← coord b mem, ← placed.layout] at high
        exact List.mem_append_right _ (updates.down b mem c before high)

end Axes

/-- What `update` does. -/
structure Updated (n : Node) (s t : Space) : Prop where
  layout : t.layout = (s.resetOld n).layout
  watcherNodes : t.watcherNodes = s.watcherNodes
  coord : ∀ c a, c ≠ n → t.coord c a = s.coord c a
  lined : ∀ a, Lined a n s t
  views : ∃ ps : List (Axis × Node × Bool), t.views = ps.foldl (fun v p => s.layout.pass p.1 n p.2.1 p.2.2 v) s.views ∧
    (∀ p ∈ ps, p.2.1 ∈ s.list p.1) ∧ (∀ a c, Before (s.list a) n c → s.coord c a < s.layout.xx n a → (a, c, true) ∈ ps) ∧
    ∀ a c, Before (s.list a) c n → s.layout.xx n a < s.coord c a → (a, c, false) ∈ ps

/-- `resetOld` leaves everything but the layout. -/
theorem resetOld_eq (s : Space) (n : Node) : s.resetOld n = { s with layout := (s.resetOld n).layout } := by
  cases n <;> rfl

/-- **`update`** ends, and sweeps the node through all three lists. -/
theorem update_spec {s : Space} {n : Node} (ready : ∀ a, Ready s n a) : ∃ t, s.update n = some t ∧ Updated n s t := by
  obtain ⟨t, ps, run, updates⟩ := updates_spec [.x, .y, .z] (by decide) fun a _ => ready a
  have all : ∀ a : Axis, a ∈ [Axis.x, .y, .z] := by
    intro a
    cases a <;> simp
  have eq : s.update n = ([Axis.x, .y, .z].foldlM (fun (s : Space) a => s.updateAxis a n) s).map fun t => t.resetOld n := by
    simp only [update, List.foldlM_cons, List.foldlM_nil, Option.map_eq_bind, Option.bind_eq_bind, Option.bind_assoc]
    rfl
  have layout : (t.resetOld n).layout = (s.resetOld n).layout := by
    cases n <;> simp [resetOld, setOld, updates.layout]
  refine ⟨t.resetOld n, by rw [eq, run]; rfl, layout, ?_, ?_, ?_, ps, ?_, updates.passed, ?_, ?_⟩
  · rw [resetOld_eq]
    exact updates.watcherNodes
  · rw [resetOld_eq]
    exact fun c a other => updates.coord c a (.inl other)
  · intro a
    rw [resetOld_eq]
    exact (updates.lined a (all a)).congr rfl rfl (fun _ => rfl) rfl fun _ => rfl
  · rw [resetOld_eq]
    exact updates.views
  · exact fun a => updates.up a (all a)
  · exact fun a => updates.down a (all a)

/-- `n` and `c` stand on the wrong side of each other for where `n` goes. -/
def Crossed (s : Space) (a : Axis) (n c : Node) : Prop :=
  Before (s.list a) n c ∧ s.coord c a < s.layout.xx n a ∨ Before (s.list a) c n ∧ s.layout.xx n a < s.coord c a

section Views

variable {n c d : Node} {s t : Space} {o e : Nat} {b : Boundary} {a : Axis}

theorem Updated.before (updated : Updated n s t) (left : c ≠ n) (right : d ≠ n) (before : Before (s.list a) c d) :
    Before (t.list a) c d := by
  have both := before.filter (p := fun c => decide (c ≠ n)) (by simpa using left) (by simpa using right)
  have others := (updated.lined a).others
  rw [← others] at both
  exact both.of_filter

theorem Updated.sound (updated : Updated n s t) (sound : s.views.Sound) : t.views.Sound := by
  obtain ⟨ps, views, -⟩ := updated.views
  rw [views]
  exact foldl_keeps Views.Sound ps (fun v p _ sound => Layout.sound_pass sound s.layout p.1 n p.2.1 p.2.2) sound

theorem Updated.live (updated : Updated n s t) (stays : s.layout.Stays n o e) (area : s.layout.Area o)
    (sound : s.views.Sound) (live : s.views.Live o e) : t.views.Live o e := by
  obtain ⟨ps, views, -⟩ := updated.views
  rw [views]
  refine (foldl_keeps (fun v : Views => v.Sound ∧ v.Live o e) ps ?_ ⟨sound, live⟩).2
  rintro v p - ⟨sound, live⟩
  exact ⟨Layout.sound_pass sound s.layout p.1 n p.2.1 p.2.2, Layout.pass_live stays area sound live⟩

theorem Updated.dead (updated : Updated n s t) (away : s.layout.Away n o e) (sound : s.views.Sound)
    (dead : ¬ s.views.Live o e) : ¬ t.views.Live o e := by
  obtain ⟨ps, views, -⟩ := updated.views
  rw [views]
  refine (foldl_keeps (fun v : Views => v.Sound ∧ ¬ v.Live o e) ps ?_ ⟨sound, dead⟩).2
  rintro v p - ⟨sound, dead⟩
  exact ⟨Layout.sound_pass sound s.layout p.1 n p.2.1 p.2.2, fun live => dead (Layout.pass_dead away sound live)⟩

/-- A reference that becomes live is to an entity in the lists, by a boundary in the lists. -/
theorem Updated.present (updated : Updated n s t) {P : Node → Prop} (lists : ∀ a c, c ∈ s.list a → P c) (here : P n)
    (sound : s.views.Sound) (live : t.views.Live o e) : s.views.Live o e ∨ P (.entity e) ∧ ∃ b, b.origin = o ∧ P (.boundary b) := by
  obtain ⟨ps, views, passed, -⟩ := updated.views
  rw [views] at live
  refine (foldl_keeps (fun v : Views => v.Sound ∧ (v.Live o e →
    s.views.Live o e ∨ P (.entity e) ∧ ∃ b, b.origin = o ∧ P (.boundary b))) ps ?_ ⟨sound, .inl⟩).2 live
  rintro v p mem ⟨sound, old⟩
  refine ⟨Layout.sound_pass sound s.layout p.1 n p.2.1 p.2.2, ?_⟩
  intro live
  rcases Layout.pass_old_or sound live with live | ⟨b, origin, -, -, pair⟩
  · exact old live
  · have there : P p.2.1 := lists p.1 p.2.1 (passed p mem)
    rcases pair with ⟨rfl, same⟩ | ⟨rfl, same⟩
    · exact .inr ⟨here, b, origin, same ▸ there⟩
    · exact .inr ⟨same ▸ there, b, origin, here⟩

/-- A boundary and an entity on the wrong side of each other pass. -/
theorem Updated.crosses (updated : Updated n s t) (pair : n = .entity e ∧ c = .boundary b ∨ n = .boundary b ∧ c = .entity e)
    (crossed : Crossed s a n c) : ∃ ps : List (Axis × Node × Bool),
      t.views = ps.foldl (fun v p => s.layout.pass p.1 n p.2.1 p.2.2 v) s.views ∧
      ∃ up isfront, (a, c, up) ∈ ps ∧
        ∀ v, s.layout.pass a n c up v = s.layout.onNodePass a (.boundary b) (.entity e) isfront v := by
  obtain ⟨ps, views, -, up, down⟩ := updated.views
  refine ⟨ps, views, ?_⟩
  have both : ∀ up : Bool, ∃ isfront, ∀ v,
      s.layout.pass a n c up v = s.layout.onNodePass a (.boundary b) (.entity e) isfront v := by
    intro dir
    rcases pair with ⟨rfl, rfl⟩ | ⟨rfl, rfl⟩
    · exact ⟨dir, fun _ => rfl⟩
    · exact ⟨!dir, fun _ => rfl⟩
  rcases crossed with ⟨before, low⟩ | ⟨before, high⟩
  · obtain ⟨isfront, same⟩ := both true
    exact ⟨true, isfront, up a c before low, same⟩
  · obtain ⟨isfront, same⟩ := both false
    exact ⟨false, isfront, down a c before high, same⟩

theorem Updated.enters (updated : Updated n s t) (pair : n = .entity e ∧ c = .boundary b ∨ n = .boundary b ∧ c = .entity e)
    (crossed : Crossed s a n c) (turns : ∀ isfront, s.layout.Turns b (.entity e) isfront a) (other : e ≠ b.origin)
    (kind : b.kind = .aoi) (out : ∀ isfront, ¬ s.layout.Was b (.entity e) isfront) (is : s.layout.Is b (.entity e))
    (stays : s.layout.Stays n b.origin e) (area : s.layout.Area b.origin) (sound : s.views.Sound) :
    t.views.Live b.origin e := by
  obtain ⟨ps, views, up, isfront, mem, same⟩ := updated.crosses pair crossed
  rw [views]
  refine foldl_reaches Views.Sound (fun v : Views => v.Live b.origin e) ?_ mem ?_ ?_ sound
  · exact fun v p sound => Layout.sound_pass sound s.layout p.1 n p.2.1 p.2.2
  · intro v sound
    dsimp only
    rw [same, Layout.onNodePass_enters (turns isfront) other (out isfront) is, live_onEnterAOI sound]
    exact .inr ⟨kind, rfl, rfl⟩
  · exact fun v p sound live => Layout.pass_live stays area sound live

theorem Updated.leaves (updated : Updated n s t) (pair : n = .entity e ∧ c = .boundary b ∨ n = .boundary b ∧ c = .entity e)
    (crossed : Crossed s a n c) (turns : ∀ isfront, s.layout.Turns b (.entity e) isfront a) (other : e ≠ b.origin)
    (kind : b.kind = .hysteresis) (was : ∀ isfront, s.layout.Was b (.entity e) isfront) (out : ¬ s.layout.Is b (.entity e))
    (away : s.layout.Away n b.origin e) (sound : s.views.Sound) : ¬ t.views.Live b.origin e := by
  obtain ⟨ps, views, up, isfront, mem, same⟩ := updated.crosses pair crossed
  rw [views]
  refine foldl_reaches Views.Sound (fun v : Views => ¬ v.Live b.origin e) ?_ mem ?_ ?_ sound
  · exact fun v p sound => Layout.sound_pass sound s.layout p.1 n p.2.1 p.2.2
  · intro v sound
    dsimp only
    rw [same, Layout.onNodePass_leaves (turns isfront) other (was isfront) out, live_onLeaveAOI sound]
    rintro ⟨-, acts⟩
    exact acts ⟨fun ignored => ignored.2 kind, rfl, rfl⟩
  · exact fun v p sound dead live => dead (Layout.pass_dead away sound live)

end Views

end GameServer.Aoi

import GameServer.Aoi.Entering
import GameServer.Aoi.Mutual

/-!
# Updates anywhere

`update_spec` says where a node comes to stand. Of a node that may stand anywhere, on a
boundary, at `-FLT_MAX` or out of order because it is being removed, it is still true that
`update` ends, that the other nodes stay in their order, and that the views see passes of nodes
in the lists (`update_walk`). So the lists stay sorted and the views mutual (`Chart`) whatever
is inserted, installed, moved (`Chart.addEntity`, `Chart.updateEntity`) or removed
(`Chart.removeEntity`).
-/

namespace GameServer.Aoi

open GameServer.Lib Space

/-- The list of an axis is sorted. -/
def Sorted (s : Space) (a : Axis) : Prop := (s.list a).Pairwise fun c d => s.coord c a ≤ s.coord d a

/-- The node goes through the lists; the others keep their order and coordinates. -/
structure Walk (n : Node) (s t : Space) : Prop where
  layout : t.layout = s.layout
  watcherNodes : t.watcherNodes = s.watcherNodes
  coord : ∀ c a, c ≠ n → t.coord c a = s.coord c a
  perm : ∀ a, (t.list a).Perm (s.list a)
  others : ∀ a, (t.list a).filter (· ≠ n) = (s.list a).filter (· ≠ n)
  views : ∃ ps : List (Axis × Node × Bool), t.views = ps.foldl (fun v p => s.layout.pass p.1 n p.2.1 p.2.2 v) s.views ∧
    ∀ p ∈ ps, p.2.1 ∈ s.list p.1

/-- A node whose list is sorted but for it. -/
structure Loose (s : Space) (n : Node) (a : Axis) : Prop where
  nodup : (s.list a).Nodup
  mem : n ∈ s.list a
  sorted : ((s.list a).filter (· ≠ n)).Pairwise fun c d => s.coord c a ≤ s.coord d a

/-- The node goes through the list of one axis. -/
structure WalkAxis (a : Axis) (n : Node) (s t : Space) : Prop extends Walk n s t where
  list : ∀ b, b ≠ a → t.list b = s.list b
  self : ∀ b, b ≠ a → t.coord n b = s.coord n b
  sorted : (s.layout.xx n a = s.layout.old n a → Sorted s a) → Sorted t a

section Walk

variable {n : Node} {s t u : Space} {a b : Axis}

theorem Walk.refl (n : Node) (s : Space) : Walk n s s :=
  ⟨rfl, rfl, fun _ _ _ => rfl, fun _ => .refl _, fun _ => rfl, [], rfl, nofun⟩

theorem Walk.trans (first : Walk n s t) (second : Walk n t u) : Walk n s u := by
  obtain ⟨ps, views, passed⟩ := first.views
  obtain ⟨qs, views', passed'⟩ := second.views
  refine ⟨second.layout.trans first.layout, second.watcherNodes.trans first.watcherNodes, fun c a other => ?_,
    fun a => (second.perm a).trans (first.perm a), fun a => (second.others a).trans (first.others a), ps ++ qs, ?_, ?_⟩
  · rw [second.coord c a other, first.coord c a other]
  · rw [views', views, first.layout, List.foldl_append]
  · intro p mem
    rcases List.mem_append.1 mem with mem | mem
    · exact passed p mem
    · exact (first.perm p.1).mem_iff.1 (passed' p mem)

theorem WalkAxis.coord_other (walk : WalkAxis a n s t) (axis : b ≠ a) (c : Node) : t.coord c b = s.coord c b := by
  by_cases same : c = n
  · rw [same]
    exact walk.self b axis
  · exact walk.coord c b same

theorem WalkAxis.sorted_other (walk : WalkAxis a n s t) (axis : b ≠ a) : Sorted t b ↔ Sorted s b := by
  simp only [Sorted, walk.list b axis, walk.coord_other axis]

theorem WalkAxis.loose_other (walk : WalkAxis a n s t) (axis : b ≠ a) (loose : Loose s n b) : Loose t n b := by
  obtain ⟨nodup, mem, sorted⟩ := loose
  rw [← walk.list b axis] at nodup mem sorted
  refine ⟨nodup, mem, ?_⟩
  simpa only [walk.coord_other axis] using sorted

theorem Placed.walk {ps : List (Node × Bool)} (placed : Placed a n ps s t) : WalkAxis a n s t := by
  have list : ∀ b, b ≠ a → t.list b = s.list b := placed.list
  refine ⟨⟨placed.layout, placed.watcherNodes, fun c b other => placed.coord c b (.inl other), fun b => ?_, fun b => ?_,
    ps.map (fun p => (a, p)), ?_, ?_⟩, list, fun b axis => placed.coord n b (.inr axis), fun _ => placed.sorted⟩
  · by_cases axis : b = a
    · rw [axis]
      exact placed.perm
    · rw [list b axis]
  · by_cases axis : b = a
    · rw [axis]
      exact placed.others
    · rw [list b axis]
  · rw [placed.views, List.foldl_map]
  · intro p mem
    obtain ⟨q, here, rfl⟩ := List.mem_map.1 mem
    exact placed.passed q here

theorem updateAxis_walk (loose : Loose s n a) : ∃ t, s.updateAxis a n = some t ∧ WalkAxis a n s t := by
  unfold updateAxis
  split_ifs with same
  · exact ⟨s, rfl, .refl n s, fun _ _ => rfl, fun _ _ => rfl, fun sorted => sorted same.2⟩
  · obtain ⟨t, ps, run, placed⟩ := rounds_eq loose.nodup loose.mem loose.sorted (s.list a).length
    exact ⟨t, run, placed.walk⟩

/-- **`update`** of a node that may stand anywhere ends; an axis on which it sees no change must
have been sorted before. -/
theorem update_walk (loose : ∀ a, Loose s n a) : ∃ t u, s.update n = some t ∧ Walk n s u ∧ t = u.resetOld n ∧
    ∀ a, (s.layout.xx n a = s.layout.old n a → Sorted s a) → Sorted t a := by
  obtain ⟨x, runX, walkX⟩ := updateAxis_walk (loose .x)
  obtain ⟨y, runY, walkY⟩ := updateAxis_walk (walkX.loose_other (by decide) (loose .y))
  obtain ⟨z, runZ, walkZ⟩ := updateAxis_walk
    (walkY.loose_other (by decide) (walkX.loose_other (by decide) (loose .z)))
  have run : s.update n = some (z.resetOld n) := by
    simp only [update, runX, runY, runZ, Option.bind_eq_bind, Option.bind_some]
    rfl
  refine ⟨_, z, run, (walkX.toWalk.trans walkY.toWalk).trans walkZ.toWalk, rfl, fun a sorted => ?_⟩
  have last : Sorted z a := by
    cases a with
    | x =>
      rw [walkZ.sorted_other (by decide), walkY.sorted_other (by decide)]
      exact walkX.sorted sorted
    | y =>
      rw [walkZ.sorted_other (by decide)]
      refine walkY.sorted ?_
      rw [walkX.layout, walkX.sorted_other (by decide)]
      exact sorted
    | z =>
      refine walkZ.sorted ?_
      rw [walkY.layout, walkX.layout, walkY.sorted_other (by decide), walkX.sorted_other (by decide)]
      exact sorted
  rw [resetOld_eq]
  exact last

end Walk

/-- A space with the nodes `P`, of entities in `H`; a witness that sees somebody is one of these. -/
structure Chart (s : Space) (P : Node → Prop) (H : Nat → Prop) : Prop extends Lists s P where
  both : s.views.Mutual
  seen : ∀ o e, s.views.Live o e → H o
  owner : ∀ n, P n → H n.owner

/-- What belongs to other entities than `id` has not been touched. -/
structure Touches (id : Nat) (s t : Space) : Prop where
  coord : ∀ c, c.owner ≠ id → t.coord c = s.coord c
  watcherNodes : ∀ o, o ≠ id → t.watcherNodes o = s.watcherNodes o

section Chart

variable {P Q : Node → Prop} {H : Nat → Prop} {n : Node} {s t u : Space} {a : Axis} {b : Boundary} {id o e : Nat}

theorem Touches.refl (id : Nat) (s : Space) : Touches id s s := ⟨fun _ _ => rfl, fun _ _ => rfl⟩

theorem Touches.trans (first : Touches id s t) (second : Touches id t u) : Touches id s u :=
  ⟨fun c other => (second.coord c other).trans (first.coord c other),
    fun o other => (second.watcherNodes o other).trans (first.watcherNodes o other)⟩

theorem Chart.congr (chart : Chart s P H) (list : t.list = s.list) (views : t.views = s.views)
    (coord : ∀ c, P c → t.coord c = s.coord c) : Chart t P H := by
  refine ⟨⟨?_, ?_, fun a => ?_⟩, ?_, ?_, chart.owner⟩
  · rw [list]
    exact chart.nodup
  · rw [list]
    exact chart.mem
  · rw [list]
    refine List.Pairwise.imp_of_mem ?_ (chart.sorted a)
    intro c d memc memd le
    rw [coord c ((chart.mem a c).1 memc), coord d ((chart.mem a d).1 memd)]
    exact le
  · rw [views]
    exact chart.both
  · rw [views]
    exact chart.seen

theorem Walk.mutual (walk : Walk n s t) (both : s.views.Mutual) : t.views.Mutual := by
  obtain ⟨ps, views, -⟩ := walk.views
  rw [views]
  exact foldl_keeps Views.Mutual ps (fun v p _ both => Layout.mutual_pass both s.layout p.1 n p.2.1 p.2.2) both

/-- Somebody new is seen by the owner of a boundary in the lists. -/
theorem Walk.seen (walk : Walk n s t) (both : s.views.Mutual) (owner : ∀ a, ∀ c ∈ s.list a, H c.owner) (here : H n.owner)
    (seen : ∀ o e, s.views.Live o e → H o) : ∀ o e, t.views.Live o e → H o := by
  obtain ⟨ps, views, passed⟩ := walk.views
  rw [views]
  refine (foldl_keeps (fun v : Views => v.Mutual ∧ ∀ o e, v.Live o e → H o) ps ?_ ⟨both, seen⟩).2
  rintro v p mem ⟨both, seen⟩
  refine ⟨Layout.mutual_pass both s.layout p.1 n p.2.1 p.2.2, fun o e live => ?_⟩
  rcases Layout.pass_old_or both.toSound live with live | ⟨b, rfl, -, -, ⟨-, same⟩ | ⟨same, -⟩⟩
  · exact seen o e live
  · have there := owner p.1 p.2.1 (passed p mem)
    rw [same] at there
    exact there
  · rw [same] at here
    exact here

theorem Lists.loose (lists : Lists s P) (here : P n) (a : Axis) : Loose s n a :=
  ⟨lists.nodup a, (lists.mem a n).2 here, (lists.sorted a).sublist List.filter_sublist⟩

theorem Walk.touches (walk : Walk n s t) : Touches n.owner s t := by
  refine ⟨fun c other => ?_, fun o _ => by rw [walk.watcherNodes]⟩
  funext a
  refine walk.coord c a ?_
  rintro rfl
  exact other rfl

/-- An update of any node of the lists. -/
theorem Chart.update (chart : Chart s P H) (here : P n) :
    ∃ t, s.update n = some t ∧ Chart t P H ∧ Touches n.owner s t ∧ t.watcherNodes = s.watcherNodes := by
  obtain ⟨t, u, run, walk, rfl, sorted⟩ := update_walk (chart.toLists.loose here)
  refine ⟨_, run, ?_⟩
  rw [resetOld_eq] at sorted ⊢
  have touches := walk.touches
  refine ⟨⟨⟨fun a => ?_, fun a c => ?_, fun a => sorted a fun _ => chart.sorted a⟩, walk.mutual chart.both, ?_, chart.owner⟩,
    ⟨touches.coord, touches.watcherNodes⟩, walk.watcherNodes⟩
  · exact (walk.perm a).nodup_iff.2 (chart.nodup a)
  · exact (walk.perm a).mem_iff.trans (chart.mem a c)
  · exact walk.seen chart.both (fun a c mem => chart.owner c ((chart.mem a c).1 mem)) (chart.owner n here) chart.seen

/-- A new node in the lists. -/
theorem Chart.insert (chart : Chart s P H) (new : ¬ P n) (here : H n.owner) :
    ∃ t, s.insert n = some t ∧ Chart t (fun c => c = n ∨ P c) H ∧ Touches n.owner s t ∧ t.watcherNodes = s.watcherNodes := by
  have owner : ∀ c, c = n ∨ P c → H c.owner := by
    rintro c (rfl | mem)
    · exact here
    · exact chart.owner c mem
  by_cases empty : s.list .x = [] ∧ s.list .y = [] ∧ s.list .z = []
  · have none : ∀ c, ¬ P c := by
      intro c mem
      have there := (chart.mem .x c).2 mem
      rw [empty.1] at there
      cases there
    refine ⟨_, if_pos empty, ?_⟩
    rw [resetOld_eq]
    refine ⟨⟨⟨fun a => List.nodup_singleton n, fun a c => ?_, fun a => List.pairwise_singleton _ _⟩, chart.both, chart.seen,
      owner⟩, ⟨fun c other => ?_, fun _ _ => rfl⟩, rfl⟩
    · show c ∈ [n] ↔ _
      simp only [List.mem_singleton, none c, or_false]
    · refine Function.update_of_ne ?_ _ _
      rintro rfl
      exact other rfl
  · have head : Chart (s.head n) (fun c => c = n ∨ P c) H := ⟨chart.toLists.head new, chart.both, chart.seen, owner⟩
    obtain ⟨t, run, after, touches, watcherNodes⟩ := head.update (.inl rfl)
    refine ⟨t, (if_neg empty).trans run, after, ⟨fun c other => ?_, touches.watcherNodes⟩, watcherNodes⟩
    rw [touches.coord c other, coord_head]
    rintro rfl
    exact other rfl

theorem Chart.mono (chart : Chart s P H) (same : ∀ n, P n ↔ Q n) : Chart s Q H := by
  obtain rfl : P = Q := funext fun n => propext (same n)
  exact chart

theorem Chart.newBoundary (chart : Chart s P H) (new : ¬ P (.boundary b)) : Chart (s.newBoundary b) P H := by
  refine chart.congr rfl rfl fun c mem => Function.update_of_ne ?_ _ _
  rintro rfl
  exact new mem

theorem Touches.newBoundary (s : Space) (b : Boundary) : Touches b.origin s (s.newBoundary b) := by
  refine ⟨fun c other => Function.update_of_ne ?_ _ _, fun o other => Function.update_of_ne other _ _⟩
  rintro rfl
  exact other rfl

/-- A boundary gets its range. -/
theorem Chart.draw (chart : Chart s P H) (here : P (.boundary b)) (old range : ℚ) :
    ∃ t, (s.setBoundary b old range).update (.boundary b) = some t ∧ Chart t P H ∧ Touches b.origin s t ∧
      t.watcherNodes = s.watcherNodes := by
  have set : Chart (s.setBoundary b old range) P H := chart.congr rfl rfl fun _ _ => rfl
  obtain ⟨t, run, after, touches, watcherNodes⟩ := set.update here
  exact ⟨t, run, after, ⟨touches.coord, touches.watcherNodes⟩, watcherNodes⟩

/-- The boundaries of a trigger, in the order of `watcherNodes_`. -/
def ends (id : Nat) (kind : Kind) : List Boundary := [⟨id, kind, .positive⟩, ⟨id, kind, .negative⟩]

/-- **`install`** puts the two boundaries of a trigger into the lists. -/
theorem Chart.install (chart : Chart s P H) {kind : Kind} (new : ∀ b ∈ ends id kind, ¬ P (.boundary b)) (here : H id)
    (range : ℚ) : ∃ t, s.install id kind range = some t ∧
      Chart t (fun c => (∃ b ∈ ends id kind, c = .boundary b) ∨ P c) H ∧ Touches id s t ∧
      t.watcherNodes id = s.watcherNodes id ++ ends id kind := by
  have newPositive : ¬ P (.boundary ⟨id, kind, .positive⟩) := new _ (by simp [ends])
  have newNegative : ¬ P (.boundary ⟨id, kind, .negative⟩) := new _ (by simp [ends])
  have made := (chart.newBoundary newPositive).newBoundary newNegative
  have touch₀ : Touches id s _ :=
    (Touches.newBoundary s ⟨id, kind, .positive⟩).trans (Touches.newBoundary _ ⟨id, kind, .negative⟩)
  obtain ⟨s₁, run₁, chart₁, touch₁, watch₁⟩ := made.insert newPositive here
  have apart : ¬ (Node.boundary ⟨id, kind, .negative⟩ = .boundary ⟨id, kind, .positive⟩ ∨ P (.boundary ⟨id, kind, .negative⟩)) := by
    rintro (same | mem)
    · cases same
    · exact newNegative mem
  obtain ⟨s₂, run₂, chart₂, touch₂, watch₂⟩ := chart₁.insert apart here
  obtain ⟨s₃, run₃, chart₃, touch₃, watch₃⟩ := chart₂.draw (.inl rfl) (-FLT_MAX) (-range)
  obtain ⟨s₄, run₄, chart₄, touch₄, watch₄⟩ := chart₃.draw (.inr (.inl rfl)) FLT_MAX range
  refine ⟨s₄, ?_, ?_, ?_, ?_⟩
  · simp only [Space.install, run₁, run₂, run₃, Option.bind_eq_bind, Option.bind_some]
    exact run₄
  · refine chart₄.mono fun c => ?_
    simp only [ends, List.mem_cons, List.not_mem_nil, or_false, exists_eq_or_imp, exists_eq_left]
    rw [← or_assoc, or_comm (a := c = Node.boundary ⟨id, kind, .negative⟩)]
  · exact (((touch₀.trans touch₁).trans touch₂).trans touch₃).trans touch₄
  · rw [watch₄, watch₃, watch₂, watch₁]
    simp [Space.newBoundary, ends]

theorem installAOITrigger_cases (s : Space) (id : Nat) :
    s.installAOITrigger id = some s ∨ (∃ r, s.installAOITrigger id = s.install id .aoi r) ∨
      ∃ r r', s.installAOITrigger id = (s.install id .hysteresis r).bind fun s => s.install id .aoi r' := by
  unfold Space.installAOITrigger
  cases aoi : (s.layout.witness id).range .aoi with
  | none => exact .inl (by simp only [aoi])
  | some r =>
    by_cases small : (s.layout.witness id).aoiRadius ≤ 0
    · exact .inl (by simp only [aoi, small, if_true])
    · right
      cases area : (s.layout.witness id).range .hysteresis with
      | none => exact .inl ⟨r, by simp only [aoi, small, area, if_false]; rfl⟩
      | some r' => exact .inr ⟨r', r, by simp only [aoi, small, area, if_false]; rfl⟩

theorem mem_ends {kind : Kind} : b ∈ ends id kind ↔ b.origin = id ∧ b.kind = kind := by
  obtain ⟨origin, kind', side⟩ := b
  cases side <;> simp [ends, eq_comm]

theorem nodup_ends (id : Nat) (kind : Kind) : (ends id kind).Nodup := by
  simp [ends]

/-- **`installAOITrigger`** puts the boundaries of the entity's triggers into the lists. -/
theorem Chart.installAOITrigger (chart : Chart s P H) (new : ∀ b : Boundary, b.origin = id → ¬ P (.boundary b)) (here : H id)
    (unwatched : s.watcherNodes id = []) : ∃ t, s.installAOITrigger id = some t ∧
      Chart t (fun c => (∃ b ∈ t.watcherNodes id, c = .boundary b) ∨ P c) H ∧ Touches id s t ∧
      (t.watcherNodes id).Nodup ∧ ∀ b ∈ t.watcherNodes id, b.origin = id := by
  have fresh : ∀ kind, ∀ b ∈ ends id kind, ¬ P (.boundary b) := fun kind b mem => new b (mem_ends.1 mem).1
  rcases installAOITrigger_cases s id with eq | ⟨r, eq⟩ | ⟨r, r', eq⟩
  · refine ⟨s, eq, chart.mono fun c => ?_, .refl id s, ?_, ?_⟩
    · simp [unwatched]
    · simp [unwatched]
    · simp [unwatched]
  · obtain ⟨t, run, after, touches, watchers⟩ := chart.install (fresh .aoi) here r
    rw [unwatched, List.nil_append] at watchers
    refine ⟨t, eq.trans run, ?_, touches, ?_, ?_⟩
    · rw [watchers]
      exact after
    · rw [watchers]
      exact nodup_ends id .aoi
    · rw [watchers]
      exact fun b mem => (mem_ends.1 mem).1
  · obtain ⟨s₁, run₁, chart₁, touch₁, watch₁⟩ := chart.install (fresh .hysteresis) here r
    have fresh' : ∀ b ∈ ends id .aoi, ¬ ((∃ b' ∈ ends id .hysteresis, Node.boundary b = .boundary b') ∨ P (.boundary b)) := by
      rintro b mem (⟨b', mem', same⟩ | old)
      · obtain rfl := Node.boundary.inj same
        cases (mem_ends.1 mem).2.symm.trans (mem_ends.1 mem').2
      · exact fresh .aoi b mem old
    obtain ⟨s₂, run₂, chart₂, touch₂, watch₂⟩ := chart₁.install fresh' here r'
    rw [watch₁, unwatched, List.nil_append] at watch₂
    refine ⟨s₂, ?_, chart₂.mono fun c => ?_, touch₁.trans touch₂, ?_, ?_⟩
    · rw [eq, run₁]
      exact run₂
    · simp only [watch₂, List.mem_append, or_and_right, exists_or]
      rw [or_assoc]
      exact or_left_comm
    · rw [watch₂, List.nodup_append]
      refine ⟨nodup_ends id .hysteresis, nodup_ends id .aoi, ?_⟩
      rintro b mem b' mem' rfl
      cases (mem_ends.1 mem).2.symm.trans (mem_ends.1 mem').2
    · rw [watch₂]
      intro b mem
      rcases List.mem_append.1 mem with mem | mem
      · exact (mem_ends.1 mem).1
      · exact (mem_ends.1 mem).1

/-- **`addEntityAndEnterWorld`** puts the entity and the boundaries of its triggers into the lists. -/
theorem Chart.addEntity (chart : Chart s P H) (new : ∀ n : Node, n.owner = id → ¬ P n) (here : H id)
    (unwatched : s.watcherNodes id = []) : ∃ t, s.addEntityAndEnterWorld id = some t ∧
      Chart t (fun c => (∃ b ∈ t.watcherNodes id, c = .boundary b) ∨ c = .entity id ∨ P c) H ∧ Touches id s t ∧
      (t.watcherNodes id).Nodup ∧ ∀ b ∈ t.watcherNodes id, b.origin = id := by
  obtain ⟨s₁, run₁, chart₁, touch₁, watch₁⟩ := chart.insert (n := .entity id) (new _ rfl) here
  have new' : ∀ b : Boundary, b.origin = id → ¬ (Node.boundary b = .entity id ∨ P (.boundary b)) := by
    rintro b origin (same | mem)
    · cases same
    · exact new (.boundary b) origin mem
  rw [← watch₁] at unwatched
  obtain ⟨s₂, run₂, chart₂, touch₂, watchers⟩ := chart₁.installAOITrigger new' here unwatched
  refine ⟨s₂, ?_, chart₂, touch₁.trans touch₂, watchers⟩
  simp only [Space.addEntityAndEnterWorld, run₁, Option.bind_eq_bind, Option.bind_some]
  exact run₂

/-- **`EntityCoordinateNode::update`** of an entity in the lists. -/
theorem Chart.updateEntity (chart : Chart s P H) (here : P (.entity id)) (watched : ∀ b ∈ s.watcherNodes id, P (.boundary b))
    (origin : ∀ b ∈ s.watcherNodes id, b.origin = id) :
    ∃ t, s.updateEntity id = some t ∧ Chart t P H ∧ Touches id s t ∧ t.watcherNodes = s.watcherNodes := by
  have loop : ∀ (bs : List Boundary) (s : Space), Chart s P H → (∀ b ∈ bs, P (.boundary b)) → (∀ b ∈ bs, b.origin = id) →
      ∃ t, bs.foldlM (fun s b => s.update (.boundary b)) s = some t ∧ Chart t P H ∧ Touches id s t ∧
        t.watcherNodes = s.watcherNodes := by
    intro bs
    induction bs with
    | nil => exact fun s chart _ _ => ⟨s, rfl, chart, .refl id s, rfl⟩
    | cons b bs ih =>
      intro s chart watched origin
      obtain ⟨s₁, run₁, chart₁, touch₁, watch₁⟩ := chart.update (watched b List.mem_cons_self)
      obtain ⟨t, run, after, touches, watch⟩ := ih s₁ chart₁ (fun b mem => watched b (List.mem_cons_of_mem _ mem))
        fun b mem => origin b (List.mem_cons_of_mem _ mem)
      have touch : Touches id s s₁ := origin b List.mem_cons_self ▸ touch₁
      refine ⟨t, ?_, after, touch.trans touches, watch.trans watch₁⟩
      rw [List.foldlM_cons, run₁]
      exact run
  obtain ⟨s₁, run₁, chart₁, touch₁, watch₁⟩ := chart.update here
  rw [← watch₁] at watched origin
  obtain ⟨t, run, after, touches, watch⟩ := loop (s₁.watcherNodes id) s₁ chart₁ watched origin
  refine ⟨t, ?_, after, touch₁.trans touches, watch.trans watch₁⟩
  simp only [Space.updateEntity, run₁, Option.bind_eq_bind, Option.bind_some]
  exact run

/-- `onRemove` puts one node out of order. -/
theorem Lists.loose_onRemove (lists : Lists s P) (here : P n) (a : Axis) : Loose (s.onRemove n) n a := by
  refine ⟨lists.nodup a, (lists.mem a n).2 here, ?_⟩
  refine List.Pairwise.imp_of_mem ?_ ((lists.sorted a).sublist List.filter_sublist)
  intro c d memc memd le
  have other : ∀ c ∈ (s.list a).filter (· ≠ n), (s.onRemove n).coord c a = s.coord c a := by
    intro c mem
    exact coord_setCoord (.inl (by simpa using (List.mem_filter.1 mem).2))
  rw [other c memc, other d memd]
  exact le

/-- A boundary without its trigger goes down to `-FLT_MAX`. -/
theorem Chart.removeBoundary (chart : Chart s P H) (here : P (.boundary b)) :
    ∃ t, s.removeBoundary b = some t ∧ Chart t P H ∧ Touches b.origin s t ∧ t.views = s.views ∧
      t.watcherNodes b.origin = (s.watcherNodes b.origin).erase b := by
  have loose : ∀ a, Loose (s.detach b) (.boundary b) a := by
    intro a
    obtain ⟨nodup, mem, sorted⟩ := chart.toLists.loose_onRemove here a
    exact ⟨nodup, mem, sorted⟩
  have xx : ∀ a, (s.detach b).layout.xx (.boundary b) a = -FLT_MAX := by
    intro a
    simp [Layout.xx, Space.detach, Space.onRemove, setOld, setCoord]
  have old : ∀ a, (s.detach b).layout.old (.boundary b) a = s.coord (.boundary b) a := by
    intro a
    simp [Space.detach, Space.onRemove, setOld, setCoord]
  obtain ⟨t, u, run, walk, rfl, sorted⟩ := update_walk loose
  -- a boundary that stays where it is was at `-FLT_MAX` before
  have sorted' : ∀ a, Sorted (u.resetOld (.boundary b)) a := by
    intro a
    refine sorted a fun same => ?_
    rw [xx, old] at same
    have coord : ∀ c, (s.detach b).coord c a = s.coord c a := by
      intro c
      by_cases self : c = .boundary b ∧ a = .x
      · obtain ⟨rfl, rfl⟩ := self
        rw [← same]
        simp [Space.detach, Space.onRemove, setCoord]
      · exact coord_setCoord (not_and_or.1 self)
    show (s.list a).Pairwise fun c d => (s.detach b).coord c a ≤ (s.detach b).coord d a
    simpa only [coord] using chart.sorted a
  refine ⟨{ u.resetOld (.boundary b) with views := s.views }, by rw [Space.removeBoundary, run]; rfl, ?_, ?_, rfl, ?_⟩
  · rw [resetOld_eq] at sorted' ⊢
    refine ⟨⟨fun a => ?_, fun a c => ?_, sorted'⟩, chart.both, chart.seen, chart.owner⟩
    · exact (walk.perm a).nodup_iff.2 (chart.nodup a)
    · exact (walk.perm a).mem_iff.trans (chart.mem a c)
  · have touches := walk.touches
    rw [resetOld_eq]
    refine ⟨fun c other => ?_, fun o other => ?_⟩
    · refine (touches.coord c other).trans ?_
      refine Function.update_of_ne ?_ _ _
      rintro rfl
      exact other rfl
    · exact (touches.watcherNodes o other).trans (Function.update_of_ne other _ _)
  · rw [resetOld_eq]
    show u.watcherNodes b.origin = _
    rw [walk.watcherNodes]
    exact Function.update_self _ _ _

theorem Chart.uninstallBoundary (chart : Chart s P H) (watched : b ∈ s.watcherNodes b.origin → P (.boundary b)) :
    ∃ t, s.uninstallBoundary b = some t ∧ Chart t P H ∧ Touches b.origin s t ∧ t.views = s.views ∧
      t.watcherNodes b.origin = (s.watcherNodes b.origin).erase b := by
  unfold Space.uninstallBoundary
  split_ifs with mem
  · exact chart.removeBoundary (watched mem)
  · exact ⟨s, rfl, chart, .refl _ s, rfl, (List.erase_of_not_mem mem).symm⟩

/-- **`RangeTrigger::uninstall`** leaves the trigger's boundaries in the lists, but not with the
watchers. -/
theorem Chart.uninstall (chart : Chart s P H) (kind : Kind) (nodup : (s.watcherNodes id).Nodup)
    (watched : ∀ b ∈ s.watcherNodes id, P (.boundary b)) :
    ∃ t, s.uninstall id kind = some t ∧ Chart t P H ∧ Touches id s t ∧ t.views = s.views ∧ (t.watcherNodes id).Nodup ∧
      ∀ b ∈ t.watcherNodes id, b ∈ s.watcherNodes id ∧ b ∉ ends id kind := by
  obtain ⟨s₁, run₁, chart₁, touch₁, views₁, watch₁⟩ :=
    chart.uninstallBoundary (b := ⟨id, kind, .positive⟩) fun mem => watched _ mem
  have watch₁ : s₁.watcherNodes id = (s.watcherNodes id).erase ⟨id, kind, .positive⟩ := watch₁
  obtain ⟨s₂, run₂, chart₂, touch₂, views₂, watch₂⟩ :=
    chart₁.uninstallBoundary (b := ⟨id, kind, .negative⟩) fun mem => watched _ (List.mem_of_mem_erase (watch₁ ▸ mem))
  have watch₂ : s₂.watcherNodes id = (s₁.watcherNodes id).erase ⟨id, kind, .negative⟩ := watch₂
  have nodup₁ : (s₁.watcherNodes id).Nodup := watch₁ ▸ nodup.erase _
  refine ⟨s₂, ?_, chart₂, touch₁.trans touch₂, views₂.trans views₁, watch₂ ▸ nodup₁.erase _, fun b mem => ?_⟩
  · simp only [Space.uninstall, run₁, Option.bind_eq_bind, Option.bind_some]
    exact run₂
  · rw [watch₂, nodup₁.mem_erase_iff, watch₁, nodup.mem_erase_iff] at mem
    obtain ⟨negative, positive, old⟩ := mem
    refine ⟨old, fun here => ?_⟩
    simp only [ends, List.mem_cons, List.not_mem_nil, or_false] at here
    exact here.elim positive negative

/-- **`onLeaveSpace`**: the triggers are uninstalled, and the witness sees nobody. -/
theorem Chart.onLeaveSpace (chart : Chart s P H) (nodup : (s.watcherNodes id).Nodup)
    (watched : ∀ b ∈ s.watcherNodes id, P (.boundary b)) (origin : ∀ b ∈ s.watcherNodes id, b.origin = id) :
    ∃ t, s.onLeaveSpace id = some t ∧ Chart t P H ∧ Touches id s t ∧ t.watcherNodes id = [] ∧
      ∀ e, ¬ t.views.Live id e := by
  obtain ⟨s₁, run₁, chart₁, touch₁, -, nodup₁, watch₁⟩ := chart.uninstall .aoi nodup watched
  obtain ⟨s₂, run₂, chart₂, touch₂, -, -, watch₂⟩ :=
    chart₁.uninstall .hysteresis nodup₁ fun b mem => watched b (watch₁ b mem).1
  obtain ⟨left, live⟩ := chart₂.both.onLeaveSpace id
  have none : s₂.watcherNodes id = [] := by
    rw [List.eq_nil_iff_forall_not_mem]
    intro b mem
    obtain ⟨mem₁, other⟩ := watch₂ b mem
    obtain ⟨mem₀, other'⟩ := watch₁ b mem₁
    cases kind : b.kind with
    | aoi => exact other' (mem_ends.2 ⟨origin b mem₀, kind⟩)
    | hysteresis => exact other (mem_ends.2 ⟨origin b mem₀, kind⟩)
  have touches := touch₁.trans touch₂
  refine ⟨{ s₂ with views := (s₂.views.leaveAll id).clearRefs id }, ?_, ?_, ⟨touches.coord, touches.watcherNodes⟩, none, ?_⟩
  · simp only [Space.onLeaveSpace, Space.uninstallAOITrigger, run₁, run₂, Option.bind_eq_bind, Option.bind_some]
    rfl
  · refine ⟨⟨chart₂.nodup, chart₂.mem, chart₂.sorted⟩, left, fun o e seen => ?_, chart₂.owner⟩
    exact chart₂.seen o e ((live o e).1 seen).1
  · exact fun e seen => ((live id e).1 seen).2 rfl

/-- **`removeEntity`** takes the nodes of the entity out of the lists. -/
theorem Chart.removeEntity (chart : Chart s P H) (here : P (.entity id)) (nodup : (s.watcherNodes id).Nodup)
    (watched : ∀ b : Boundary, b.origin = id → (b ∈ s.watcherNodes id ↔ P (.boundary b)))
    (origin : ∀ b ∈ s.watcherNodes id, b.origin = id) :
    ∃ t, s.removeEntity id = some t ∧ Chart t (fun c => P c ∧ c.owner ≠ id) H ∧ Touches id s t ∧ t.watcherNodes id = [] ∧
      ∀ e, ¬ t.views.Live id e := by
  obtain ⟨s₁, run₁, chart₁, touch₁, unwatched, blind⟩ :=
    chart.onLeaveSpace nodup (fun b mem => (watched b (origin b mem)).1 mem) origin
  obtain ⟨t, u, run, walk, rfl, -⟩ := update_walk (chart₁.toLists.loose_onRemove here)
  have both : (s₁.onRemove (.entity id)).views.Mutual := chart₁.both
  have own : ∀ c, P c → (c ∈ (s.watcherNodes id).map Node.boundary ++ [.entity id] ↔ c.owner = id) := by
    intro c mem
    cases c with
    | entity e => simp [Node.owner]
    | boundary b =>
      simp only [List.mem_append, List.mem_map, Node.boundary.injEq, exists_eq_right, List.mem_singleton, reduceCtorEq, or_false]
      exact ⟨origin b, fun same => (watched b same).2 mem⟩
  have coord : ∀ c a, c ≠ .entity id → u.coord c a = s₁.coord c a := fun c a other =>
    (walk.coord c a other).trans (coord_setCoord (.inl other))
  refine ⟨(u.resetOld (.entity id)).releaseNodes ((s.watcherNodes id).map Node.boundary ++ [.entity id]), ?_, ?_, ?_, ?_, ?_⟩
  · simp only [Space.removeEntity, run₁, run, Option.bind_eq_bind, Option.bind_some]
    rfl
  · rw [resetOld_eq]
    refine ⟨⟨fun a => ?_, fun a c => ?_, fun a => ?_⟩, walk.mutual both, ?_, fun n mem => chart.owner n mem.1⟩
    · exact ((walk.perm a).nodup_iff.2 (chart₁.nodup a)).filter _
    · have mem : c ∈ u.list a ↔ P c := (walk.perm a).mem_iff.trans (chart₁.mem a c)
      show c ∈ (u.list a).filter _ ↔ _
      rw [List.mem_filter, mem, decide_eq_true_iff]
      exact and_congr_right fun mem => not_congr (own c mem)
    · show ((u.list a).filter _).Pairwise _
      have fewer : ((u.list a).filter (· ∉ (s.watcherNodes id).map Node.boundary ++ [.entity id])).Sublist
          ((s₁.list a).filter (· ≠ .entity id)) := by
        have others : (u.list a).filter (· ≠ .entity id) = (s₁.list a).filter (· ≠ .entity id) := walk.others a
        rw [← others]
        refine List.monotone_filter_right _ fun c kept => ?_
        rw [decide_eq_true_iff] at kept ⊢
        rintro rfl
        exact kept (List.mem_append_right _ (List.mem_singleton.2 rfl))
      refine List.Pairwise.imp_of_mem ?_ (((chart₁.sorted a).sublist List.filter_sublist).sublist fewer)
      intro c d memc memd le
      have other : ∀ c ∈ (u.list a).filter (· ∉ (s.watcherNodes id).map Node.boundary ++ [.entity id]), c ≠ .entity id := by
        intro c mem
        simpa using (List.mem_filter.1 (fewer.subset mem)).2
      show u.coord c a ≤ u.coord d a
      rw [coord c a (other c memc), coord d a (other d memd)]
      exact le
    · exact walk.seen both (fun a c mem => chart.owner c ((chart₁.mem a c).1 mem)) (chart.owner _ here) chart₁.seen
  · rw [resetOld_eq]
    have touches := walk.touches
    refine ⟨fun c other => ?_, fun o other => ?_⟩
    · refine Eq.trans ?_ (touch₁.coord c other)
      funext a
      refine coord c a ?_
      rintro rfl
      exact other rfl
    · exact (touches.watcherNodes o other).trans (touch₁.watcherNodes o other)
  · rw [resetOld_eq]
    show u.watcherNodes id = []
    rw [walk.watcherNodes]
    exact unwatched
  · rw [resetOld_eq]
    obtain ⟨ps, views, -⟩ := walk.views
    show ∀ e, ¬ u.views.Live id e
    rw [views]
    refine (foldl_keeps (fun v : Views => v.Mutual ∧ ∀ e, ¬ v.Live id e) ps ?_ ⟨both, blind⟩).2
    rintro v p - ⟨both, blind⟩
    exact ⟨Layout.mutual_pass both _ p.1 _ p.2.1 p.2.2, fun e live => blind e (Layout.pass_self both.toSound live)⟩

end Chart

end GameServer.Aoi

import GameServer.Aoi.Walks

/-!
# Witnesses and witnessed

After every run of `AddEntity`, `DeleteEntity` and moves, wherever entities stand, an entity's
`witnesses_` and the witnesses' `aoiEntities_` say the same, and a witness of anybody can be
found (`witness_symmetry`). An entity that is deleted leaves everybody it sees. Those who see
it keep their references, and stay its witnesses, until they leave it or the space themselves.
-/

namespace GameServer.Aoi.MapManager

open GameServer.Lib

/-- The node is in the lists of the space. -/
def Holds (m : MapManager) (space_id : Int) (n : Node) : Prop :=
  m.inSpace n.owner = some space_id ∧ ∀ b, n = .boundary b → b ∈ m.watcherNodes b.origin

/-- Every space has the nodes of the entities in it and of their watchers, and only those who are
in a space see anybody. -/
structure Valid (m : MapManager) : Prop where
  lists : ∀ space_id list, m.spaceMap space_id = some list → Lists (m.load list) (m.Holds space_id)
  known : ∀ id space_id, m.inSpace id = some space_id → m.spaceMap space_id ≠ none
  nodup : ∀ id, (m.watcherNodes id).Nodup
  origin : ∀ id, ∀ b ∈ m.watcherNodes id, b.origin = id
  absent : ∀ id, m.inSpace id = none → m.watcherNodes id = []
  found : ∀ id, m.inSpace id ≠ none → m.findEntity id = some id
  both : m.views.Mutual
  seen : ∀ o e, m.views.Live o e → m.inSpace o ≠ none

/-- The manager after an operation on the entity `id` in one space. -/
def put (m : MapManager) (space_id : Int) (t : Space) (id : Nat) (entity : Option Nat) (here : Option Int) : MapManager :=
  { m.store space_id t with
    entities := Function.update m.entities id entity, inSpace := Function.update m.inSpace id here }

variable {m : MapManager} {id : Nat} {space_id : Int} {entity : Option Nat} {here : Option Int} {list : Axis → List Node}
  {t : Space} {o : Nat} {k : Int}

theorem inSpace_put_self : (m.put space_id t id entity here).inSpace id = here := Function.update_self ..

theorem inSpace_put_other (other : o ≠ id) : (m.put space_id t id entity here).inSpace o = m.inSpace o :=
  Function.update_of_ne other ..

theorem findEntity_put_self : (m.put space_id t id entity here).findEntity id = entity := Function.update_self ..

theorem findEntity_put_other (other : o ≠ id) : (m.put space_id t id entity here).findEntity o = m.findEntity o :=
  Function.update_of_ne other ..

theorem spaceMap_put_self : (m.put space_id t id entity here).spaceMap space_id = some t.list := Function.update_self ..

theorem spaceMap_put_other (other : k ≠ space_id) : (m.put space_id t id entity here).spaceMap k = m.spaceMap k :=
  Function.update_of_ne other ..

theorem Valid.init (position : Nat → Axis → ℚ) (witness : Nat → Witness) : Valid (.init position witness) := by
  have blind : ∀ o e, ¬ (MapManager.init position witness).views.Live o e := by
    rintro o e ⟨ref, mem, -⟩
    cases mem
  exact {
    lists := nofun
    known := nofun
    nodup := fun _ => List.nodup_nil
    origin := nofun
    absent := fun _ _ => rfl
    found := fun _ here => (here rfl).elim
    both := ⟨⟨fun _ => List.nodup_nil, nofun⟩, nofun, fun o e live => (blind o e live).elim, nofun⟩
    seen := fun o e live => (blind o e live).elim }

theorem watcherNodes_put_other (touches : Touches id (m.load list) t) (other : o ≠ id) :
    (m.put space_id t id entity here).watcherNodes o = m.watcherNodes o := touches.watcherNodes o other

/-- The lists of a space, new or not. -/
theorem Valid.listsOf (valid : Valid m) (space_id : Int) :
    Lists (m.load ((m.spaceMap space_id).getD fun _ => [])) (m.Holds space_id) := by
  cases there : m.spaceMap space_id with
  | some list => exact valid.lists space_id list there
  | none =>
    refine ⟨fun _ => List.nodup_nil, fun a n => ⟨nofun, fun holds => ?_⟩, fun _ => .nil⟩
    exact (valid.known _ space_id holds.1 there).elim

/-- A node of the entity is in the space where the entity is, if it is a watcher. -/
theorem holds_own {n : Node} (own : n.owner = id) (here : m.inSpace id = some space_id) :
    m.Holds space_id n ↔ (∃ b ∈ m.watcherNodes id, n = .boundary b) ∨ n = .entity id := by
  unfold Holds
  rw [own]
  cases n with
  | entity e =>
    obtain rfl : e = id := own
    simp [here]
  | boundary b =>
    obtain rfl : b.origin = id := own
    simp [here]

theorem holds_put_other (touches : Touches id (m.load list) t) {n : Node} (other : n.owner ≠ id) (k : Int) :
    (m.put space_id t id entity here).Holds k n ↔ m.Holds k n := by
  unfold Holds
  rw [inSpace_put_other other]
  refine and_congr_right fun _ => forall_congr' fun b => imp_congr_right fun same => ?_
  rw [watcherNodes_put_other touches]
  rintro rfl
  exact other (by rw [same]; rfl)

/-- An operation on the entity `id` in one space. -/
theorem Valid.put (valid : Valid m) (touches : Touches id (m.load list) t) (before : ∀ k, m.inSpace id = some k → k = space_id)
    (after : ∀ k, here = some k → k = space_id) (lists : Lists t ((m.put space_id t id entity here).Holds space_id))
    (nodup : (t.watcherNodes id).Nodup) (origin : ∀ b ∈ t.watcherNodes id, b.origin = id)
    (absent : here = none → t.watcherNodes id = []) (found : here ≠ none → entity = some id) (both : t.views.Mutual)
    (seen : ∀ o e, t.views.Live o e → (m.put space_id t id entity here).inSpace o ≠ none) :
    Valid (m.put space_id t id entity here) where
  lists k list there := by
    by_cases same : k = space_id
    · rw [same, spaceMap_put_self] at there
      obtain rfl := Option.some.inj there
      rw [same]
      exact lists
    · rw [spaceMap_put_other same] at there
      obtain ⟨nodup, mem, sorted⟩ := valid.lists k list there
      -- no node of `id` is in this space
      have other : ∀ n, m.Holds k n → n.owner ≠ id := fun n holds own => same (before k (own ▸ holds.1))
      have other' : ∀ n, (m.put space_id t id entity here).Holds k n → n.owner ≠ id := by
        intro n holds own
        have there := holds.1
        rw [own, inSpace_put_self] at there
        exact same (after k there)
      refine ⟨nodup, fun a n => (mem a n).trans ⟨fun holds => ?_, fun holds => ?_⟩, fun a => ?_⟩
      · exact (holds_put_other touches (other n holds) k).2 holds
      · exact (holds_put_other touches (other' n holds) k).1 holds
      · refine List.Pairwise.imp_of_mem ?_ (sorted a)
        intro c d memc memd le
        show t.coord c a ≤ t.coord d a
        rw [touches.coord c (other c ((mem a c).1 memc)), touches.coord d (other d ((mem a d).1 memd))]
        exact le
  known o k there := by
    by_cases same : k = space_id
    · rw [same, spaceMap_put_self]
      nofun
    · have other : o ≠ id := by
        rintro rfl
        exact same (after k (inSpace_put_self.symm.trans there))
      rw [inSpace_put_other other] at there
      rw [spaceMap_put_other same]
      exact valid.known o k there
  nodup o := by
    by_cases same : o = id
    · rw [same]
      exact nodup
    · rw [watcherNodes_put_other touches same]
      exact valid.nodup o
  origin o := by
    by_cases same : o = id
    · rw [same]
      exact origin
    · rw [watcherNodes_put_other touches same]
      exact valid.origin o
  absent o there := by
    by_cases same : o = id
    · rw [same, inSpace_put_self] at there
      rw [same]
      exact absent there
    · rw [inSpace_put_other same] at there
      rw [watcherNodes_put_other touches same]
      exact valid.absent o there
  found o there := by
    by_cases same : o = id
    · rw [same, inSpace_put_self] at there
      rw [same, findEntity_put_self]
      exact found there
    · rw [inSpace_put_other same] at there
      rw [findEntity_put_other same]
      exact valid.found o there
  both := both
  seen := seen

theorem Valid.addEntity (valid : Valid m) (absent : m.inSpace id = none) (space_id : Int) :
    ∃ m', m.addEntity space_id id = some m' ∧ Valid m' := by
  have chart : Chart (m.load ((m.spaceMap space_id).getD fun _ => [])) (m.Holds space_id)
      (fun o => o = id ∨ m.inSpace o ≠ none) := by
    refine ⟨valid.listsOf space_id, valid.both, fun o e live => .inr (valid.seen o e live), fun n holds => .inr ?_⟩
    rw [holds.1]
    nofun
  have new : ∀ n : Node, n.owner = id → ¬ m.Holds space_id n := by
    intro n own holds
    have there := holds.1
    rw [own, absent] at there
    cases there
  obtain ⟨t, run, after, touches, nodup, origin⟩ := chart.addEntity new (.inl rfl) (valid.absent id absent)
  have added : m.addEntity space_id id = some (m.put space_id t id (some id) (some space_id)) := by
    simp only [MapManager.addEntity, run, Option.bind_eq_bind, Option.bind_some]
    rfl
  refine ⟨_, added, valid.put touches ?_ ?_ ?_ nodup origin nofun (fun _ => rfl) after.both fun o e live => ?_⟩
  · rw [absent]
    nofun
  · rintro k ⟨⟩
    rfl
  · refine ⟨after.nodup, fun a n => (after.mem a n).trans ?_, after.sorted⟩
    by_cases own : n.owner = id
    · rw [holds_own own inSpace_put_self, ← or_assoc, or_iff_left (new n own)]
      rfl
    · rw [holds_put_other touches own]
      refine ⟨?_, fun holds => .inr (.inr holds)⟩
      rintro (⟨b, mem, rfl⟩ | rfl | holds)
      · exact (own (origin b mem)).elim
      · exact (own rfl).elim
      · exact holds
  · by_cases same : o = id
    · rw [same, inSpace_put_self]
      nofun
    · rw [inSpace_put_other same]
      exact (after.seen o e live).resolve_left same

/-- The space of an entity that is in one. -/
theorem Valid.chart (valid : Valid m) (present : m.inSpace id = some space_id) :
    ∃ list, m.spaceMap space_id = some list ∧
      Chart (m.load list) (m.Holds space_id) (fun o => m.inSpace o ≠ none) ∧ m.Holds space_id (.entity id) ∧
      ∀ b : Boundary, b.origin = id → (b ∈ m.watcherNodes id ↔ m.Holds space_id (.boundary b)) := by
  obtain ⟨list, there⟩ := Option.ne_none_iff_exists'.1 (valid.known id space_id present)
  refine ⟨list, there, ⟨valid.lists space_id list there, valid.both, valid.seen, fun n holds => ?_⟩, ?_, fun b own => ?_⟩
  · rw [holds.1]
    nofun
  · exact (holds_own rfl present).2 (.inr rfl)
  · rw [holds_own (n := .boundary b) own present]
    simp

theorem Valid.deleteEntity (valid : Valid m) (present : m.inSpace id = some space_id) :
    ∃ m', m.deleteEntity space_id id = some m' ∧ Valid m' := by
  obtain ⟨list, there, chart, node, watched⟩ := valid.chart present
  obtain ⟨t, run, after, touches, unwatched, blind⟩ := chart.removeEntity node (valid.nodup id) watched (valid.origin id)
  have deleted : m.deleteEntity space_id id = some (m.put space_id t id none none) := by
    simp only [MapManager.deleteEntity, there, run, Option.map_some, Option.bind_eq_bind, Option.bind_some]
    rfl
  refine ⟨_, deleted, valid.put touches ?_ nofun ?_ ?_ ?_ (fun _ => unwatched) (fun there => (there rfl).elim) after.both
    fun o e live => ?_⟩
  · rw [present]
    rintro k ⟨⟩
    rfl
  · refine ⟨after.nodup, fun a n => (after.mem a n).trans ?_, after.sorted⟩
    by_cases own : n.owner = id
    · refine ⟨fun holds => (holds.2 own).elim, fun holds => ?_⟩
      have there := holds.1
      rw [own, inSpace_put_self] at there
      cases there
    · rw [holds_put_other touches own]
      exact and_iff_left own
  · rw [unwatched]
    exact List.nodup_nil
  · rw [unwatched]
    nofun
  · have other : o ≠ id := by
      rintro rfl
      exact blind e live
    rw [inSpace_put_other other]
    exact after.seen o e live

/-- Positions and ranges do not matter. -/
theorem Valid.place (valid : Valid m) (layout : Layout) : Valid { m with layout } :=
  ⟨fun k list there => ⟨(valid.lists k list there).nodup, (valid.lists k list there).mem, (valid.lists k list there).sorted⟩,
    valid.known, valid.nodup, valid.origin, valid.absent, valid.found, valid.both, valid.seen⟩

theorem Valid.updateEntity (valid : Valid m) (present : m.inSpace id = some space_id) :
    ∃ t, (m.load ((m.spaceMap space_id).getD fun _ => [])).updateEntity id = some t ∧ Valid (m.store space_id t) := by
  obtain ⟨list, there, chart, node, watched⟩ := valid.chart present
  have watched' : ∀ b ∈ m.watcherNodes id, m.Holds space_id (.boundary b) := fun b mem =>
    (watched b (valid.origin id b mem)).1 mem
  obtain ⟨t, run, after, touches, watchers⟩ := chart.updateEntity node watched' (valid.origin id)
  have same : m.store space_id t = m.put space_id t id (m.entities id) (m.inSpace id) := by
    simp only [MapManager.put, MapManager.store, Function.update_eq_self]
  have inSpace : ∀ o, (m.put space_id t id (m.entities id) (m.inSpace id)).inSpace o = m.inSpace o := by
    intro o
    rw [← same]
    rfl
  have inside : ∀ k, m.inSpace id = some k → k = space_id := by
    rw [present]
    rintro k ⟨⟩
    rfl
  refine ⟨t, by rw [there]; exact run, ?_⟩
  rw [same]
  refine valid.put touches inside inside ⟨after.nodup, fun a n => (after.mem a n).trans ?_, after.sorted⟩ ?_ ?_ ?_
    (valid.found id) after.both fun o e live => ?_
  · rw [← same]
    unfold Holds
    show _ ↔ m.inSpace n.owner = some space_id ∧ ∀ b, n = .boundary b → b ∈ t.watcherNodes b.origin
    rw [watchers]
    rfl
  · rw [watchers]
    exact valid.nodup id
  · rw [watchers]
    exact valid.origin id
  · rw [watchers]
    exact valid.absent id
  · rw [inSpace]
    exact after.seen o e live

theorem Valid.moveEntity (valid : Valid m) (id : Nat) (pos : Axis → ℚ) :
    ∃ m', m.moveEntity id pos = some m' ∧ Valid m' := by
  have placed := valid.place { m.layout with
    position := Function.update m.layout.position id (moved (m.layout.position id) pos) }
  unfold MapManager.moveEntity
  cases present : m.inSpace id with
  | none => exact ⟨_, by simp only [present], placed⟩
  | some space_id =>
    obtain ⟨t, run, stored⟩ := placed.updateEntity present
    refine ⟨_, ?_, stored⟩
    simp only [present]
    exact congrArg _ run

/-- **One step**: every call that the callers make is defined. -/
theorem Valid.step (valid : Valid m) :
    (∀ space_id id, m.inSpace id = none → ∃ m', m.step (.addEntity space_id id) = some m' ∧ Valid m') ∧
    (∀ space_id id, m.inSpace id = some space_id → ∃ m', m.step (.deleteEntity space_id id) = some m' ∧ Valid m') ∧
    ∀ id pos, ∃ m', m.step (.move id pos) = some m' ∧ Valid m' := by
  refine ⟨fun space_id id absent => ?_, fun space_id id present => ?_, valid.moveEntity⟩
  · obtain ⟨m', run, after⟩ := valid.addEntity absent space_id
    exact ⟨m', (if_pos absent).trans run, after⟩
  · obtain ⟨m', run, after⟩ := valid.deleteEntity present
    exact ⟨m', (if_pos present).trans run, after⟩

variable {as : List Act} {m' : MapManager}

theorem Valid.of_step (valid : Valid m) {act : Act} (next : m.step act = some m') : Valid m' := by
  obtain ⟨add, delete, move⟩ := valid.step
  have keeps : ∀ act, m.step act = some m' → (∃ u, m.step act = some u ∧ Valid u) → Valid m' := by
    rintro act next ⟨u, run, after⟩
    obtain rfl := Option.some.inj (next.symm.trans run)
    exact after
  cases act with
  | addEntity space_id id =>
    by_cases absent : m.inSpace id = none
    · exact keeps _ next (add space_id id absent)
    · cases (if_neg absent).symm.trans next
  | deleteEntity space_id id =>
    by_cases present : m.inSpace id = some space_id
    · exact keeps _ next (delete space_id id present)
    · cases (if_neg present).symm.trans next
  | move id pos => exact keeps _ next (move id pos)

theorem valid_of_runs {position : Nat → Axis → ℚ} {witness : Nat → Witness}
    (run : Runs step (fun _ _ => True) (init position witness) as m) : Valid m :=
  run.invariant Valid (Valid.init position witness) fun _ _ _ valid _ next => valid.of_step next

/-- **Witnesses and witnessed** agree after every run: an entity lists a witness once if the
witness has a reference to it, and not at all otherwise; no witness has two references with one
id; every witness of anybody is found. And every operation comes to its end. -/
theorem witness_symmetry {position : Nat → Axis → ℚ} {witness : Nat → Witness}
    (run : Runs step (fun _ _ => True) (init position witness) as m) :
    (∀ o e, ((∃ ref ∈ m.views.aoiEntities o, ref.pEntity = some e) → (m.views.witnesses e).count o = 1) ∧
      ((¬ ∃ ref ∈ m.views.aoiEntities o, ref.pEntity = some e) → o ∉ m.views.witnesses e)) ∧
    (∀ o, ((m.views.aoiEntities o).map EntityRef.id).Nodup) ∧
    (∀ e, ∀ o ∈ m.views.witnesses e, m.findEntity o = some o) ∧
    (∀ space_id id, m.inSpace id = none → m.step (.addEntity space_id id) ≠ none) ∧
    (∀ space_id id, m.inSpace id = some space_id → m.step (.deleteEntity space_id id) ≠ none) ∧
    ∀ id pos, m.step (.move id pos) ≠ none := by
  have valid := valid_of_runs run
  have defined : ∀ act, (∃ u, m.step act = some u ∧ Valid u) → m.step act ≠ none := by
    rintro act ⟨u, run, -⟩ none
    cases run.symm.trans none
  obtain ⟨add, delete, move⟩ := valid.step
  refine ⟨fun o e => ?_, valid.both.nodup, fun e o mem => ?_, fun space_id id absent => defined _ (add space_id id absent),
    fun space_id id present => defined _ (delete space_id id present), fun id pos => defined _ (move id pos)⟩
  · rw [valid.both.sees_iff]
    exact ⟨valid.both.once o e, valid.both.never o e⟩
  · refine valid.found o (valid.seen o e ?_)
    by_contra unseen
    exact valid.both.never o e unseen mem

/-- The entities stand a unit apart. -/
def row : MapManager := init (fun id _ => id) fun _ => newWitness 5 1

/-- Two entities see each other, and the second one is deleted. It is still seen, and lists its
witness; the first one has no witness. -/
theorem witness_symmetry_visit : ∃ m, Runs step (fun _ _ => True) row [.addEntity 0 0, .addEntity 0 1, .deleteEntity 0 1] m ∧
    (m.views.witnesses 1).count 0 = 1 ∧ 1 ∉ m.views.witnesses 0 ∧ m.findEntity 0 = some 0 ∧ m.findEntity 1 = none ∧
    m.step (.addEntity 0 1) ≠ none := by
  obtain ⟨m, run, sees, blind, listed, absent, gone⟩ : ∃ m, Runs step (fun _ _ => True) row
      [.addEntity 0 0, .addEntity 0 1, .deleteEntity 0 1] m ∧ (m.views.aoiEntities 0).map EntityRef.pEntity = [some 1] ∧
      m.views.aoiEntities 1 = [] ∧ m.views.witnesses 1 = [0] ∧ m.inSpace 1 = none ∧ m.findEntity 1 = none := by
    apply Runs.exists_of_decide
    decide +kernel
  obtain ⟨agree, -, found, add, -⟩ := witness_symmetry run
  refine ⟨m, run, (agree 0 1).1 ?_, (agree 1 0).2 ?_, found 1 0 ?_, gone, add 0 1 absent⟩
  · obtain ⟨ref, mem, eq⟩ := List.mem_map.1 (sees ▸ List.mem_singleton_self (some 1))
    exact ⟨ref, mem, eq⟩
  · rw [blind]
    nofun
  · rw [listed]
    exact List.mem_singleton_self 0

end GameServer.Aoi.MapManager

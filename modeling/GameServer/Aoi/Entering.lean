import GameServer.Aoi.Moves

/-!
# Entering the space

A new node is put before all others and swept to its place (`insert_spec`). An entity that
enters has no place it was at before, `-FLT_MAX` standing for it, so the boundaries it passes
on its way up either do nothing or see it come in (`Inv.insertEntity`). `install` puts both
boundaries of a trigger at the entity and draws them out to either side, past every entity in
range (`install_spec`).
-/

namespace GameServer.Aoi

open GameServer.Lib

/-- A new node before all others. -/
def Space.head (m : Space) (n : Node) : Space :=
  let m := m.setOld n fun _ => -FLT_MAX
  let first := fun a => match m.list a with | [] => -FLT_MAX | c :: _ => m.coord c a
  { m with coord := Function.update m.coord n first, list := fun a => n :: m.list a }

section Insert

variable {m t : Space} {P : Node → Prop} {n c : Node} {a : Axis}

theorem coord_head (other : c ≠ n) : (m.head n).coord c = m.coord c := Function.update_of_ne other _ _

theorem Lists.head (lists : Lists m P) (new : ¬ P n) : Lists (m.head n) fun c => c = n ∨ P c := by
  have apart : ∀ a, ∀ c ∈ m.list a, c ≠ n := fun a c mem same => new (same ▸ (lists.mem a c).1 mem)
  constructor
  · intro a
    show (n :: m.list a).Nodup
    rw [List.nodup_cons]
    exact ⟨fun mem => new ((lists.mem a n).1 mem), lists.nodup a⟩
  · intro a c
    show c ∈ n :: m.list a ↔ _
    rw [List.mem_cons, lists.mem]
  · intro a
    show (n :: m.list a).Pairwise _
    rw [List.pairwise_cons]
    constructor
    · intro c mem
      rw [coord_head (apart a c mem)]
      have sorted := lists.sorted a
      simp only [Space.head, Function.update_self, Space.setOld]
      cases list : m.list a with
      | nil =>
        rw [list] at mem
        cases mem
      | cons d rest =>
        rw [list] at mem sorted
        rcases List.mem_cons.1 mem with rfl | mem
        · exact le_refl _
        · exact (List.pairwise_cons.1 sorted).1 c mem
    · refine List.Pairwise.imp_of_mem ?_ (lists.sorted a)
      intro c d memc memd le
      rw [coord_head (apart a c memc), coord_head (apart a d memd)]
      exact le

theorem xx_head (m : Space) (n : Node) : (m.head n).layout.xx = m.layout.xx := by
  funext c a
  cases c <;> rfl

/-- The only node is in place where it is put. -/
theorem insert_alone (empty : ∀ a, m.list a = []) :
    Updated n (m.head n) (({ m with list := fun _ => [n], coord := Function.update m.coord n (m.layout.xx n) } : Space).resetOld n) := by
  have list : ∀ a, (m.head n).list a = [n] := by
    intro a
    show n :: m.list a = [n]
    rw [empty]
  have alone : ∀ c d : Node, ¬ Before [n] c d := by
    intro c d before
    have short := before.length_le
    simp at short
  have xx := xx_head m n
  constructor
  · cases n <;> simp only [Space.resetOld, Space.setOld, Space.head, Function.update_idem] <;> rfl
  · cases n <;> rfl
  · intro c a other
    rw [coord_head other, resetOld_eq]
    exact congrFun (Function.update_of_ne other _ _) a
  · intro a
    rw [resetOld_eq]
    constructor
    · rw [xx]
      exact congrFun (Function.update_self _ _ _) a
    · rw [list]
    · rw [list]
    · exact List.pairwise_singleton _ _
    · intro c before
      rw [list] at before
      exact absurd before (alone n c)
  · refine ⟨[], by rw [resetOld_eq]; rfl, by simp, ?_, ?_⟩
    · intro a c before
      rw [list] at before
      exact absurd before (alone n c)
    · intro a c before
      rw [list] at before
      exact absurd before (alone c n)

/-- **`insert`** sweeps the new node up to its place. -/
theorem insert_spec (lists : Lists m P) (new : ¬ P n) (start : ∀ a, m.layout.xx n a ≠ -FLT_MAX) :
    ∃ t, m.insert n = some t ∧ Updated n (m.head n) t := by
  have old : ∀ a, (m.head n).layout.old n a = -FLT_MAX := by
    intro a
    show Function.update m.layout.old n (fun _ => -FLT_MAX) n a = _
    rw [Function.update_self]
  by_cases empty : m.list .x = [] ∧ m.list .y = [] ∧ m.list .z = []
  · have nil : ∀ a, m.list a = [] := by
      intro a
      cases a with
      | x => exact empty.1
      | y => exact empty.2.1
      | z => exact empty.2.2
    exact ⟨_, if_pos empty, insert_alone nil⟩
  · have ready : ∀ a, Ready (m.head n) n a := by
      intro a
      refine (lists.head new).ready (.inl rfl) ?_
      intro same
      rw [old, xx_head] at same
      exact absurd same (start a)
    obtain ⟨t, run, updated⟩ := update_spec ready
    exact ⟨t, (if_neg empty).trans run, updated⟩

end Insert

section Steady

variable {m t : Space} {P : Node → Prop} {n c : Node} {a : Axis} {b : Boundary} {o e : Nat}

/-- An update of the one node that is not where it belongs. -/
theorem Updated.steady (updated : Updated n m t) (lists : Lists m P)
    (coord : ∀ c a, P c → c ≠ n → m.coord c a = m.layout.xx c a)
    (old : ∀ c a, P c → c ≠ n → m.layout.old c a = m.layout.xx c a)
    (oldRange : ∀ b, P (.boundary b) → .boundary b ≠ n → m.layout.oldRange b = m.layout.range b) : Steady t P := by
  refine ⟨updated.lists lists, ?_, ?_, ?_⟩
  · intro c a here
    rw [updated.xx]
    by_cases same : c = n
    · rw [same, (updated.lined a).self]
    · rw [updated.coord c a same, coord c a here same]
  · intro c a here
    rw [updated.xx, updated.old]
    by_cases same : c = n
    · rw [same, Function.update_self]
    · rw [Function.update_of_ne same, old c a here same]
  · intro b here
    rw [updated.range]
    by_cases same : .boundary b = n
    · rw [updated.layout, ← same]
      exact Function.update_self _ _ _
    · exact updated.oldRange (oldRange b here same)

theorem Steady.insert (steady : Steady m P) (new : ¬ P n) (start : ∀ a, m.layout.xx n a ≠ -FLT_MAX) :
    ∃ t, m.insert n = some t ∧ Updated n (m.head n) t ∧ Steady t fun c => c = n ∨ P c := by
  obtain ⟨t, run, updated⟩ := insert_spec steady.toLists new start
  refine ⟨t, run, updated, updated.steady (steady.toLists.head new) ?_ ?_ ?_⟩
  · intro c a here other
    rw [coord_head other, xx_head]
    exact steady.coord c a (here.resolve_left other)
  · intro c a here other
    rw [xx_head]
    show Function.update m.layout.old n (fun _ => -FLT_MAX) c a = _
    rw [Function.update_of_ne other]
    exact steady.old c a (here.resolve_left other)
  · intro b here other
    exact steady.oldRange b (here.resolve_left other)

/-- A boundary that saw nobody. -/
def Unseen (l : Layout) (b : Boundary) (P : Node → Prop) : Prop :=
  ∀ e isfront a, P (.entity e) → l.wasInRange b (.entity e) isfront a = false

/-- What drawing out a boundary of the trigger `kind` of `id`, with the range `r`, does to the
views: nobody is left, and only `id` may see somebody new. -/
structure Quiet (id : Nat) (kind : Kind) (r : ℚ) (P H : Nat → Prop) (m t : Space) : Prop where
  position : t.layout.position = m.layout.position
  witness : t.layout.witness = m.layout.witness
  sound : m.views.Sound → t.views.Sound
  live : ∀ o e, m.layout.Area o → P e → m.views.Sound → m.views.Live o e → t.views.Live o e
  dead : ∀ o e, (o = id → kind = .aoi → ¬ Near r (m.layout.position id) (m.layout.position e)) → m.views.Sound →
    ¬ m.views.Live o e → ¬ t.views.Live o e
  present : m.views.Sound → (∀ o e, m.views.Live o e → H o ∧ H e) → ∀ o e, t.views.Live o e → H o ∧ H e

theorem Quiet.trans {id : Nat} {kind : Kind} {r : ℚ} {P H : Nat → Prop} {m t u : Space} (first : Quiet id kind r P H m t)
    (second : Quiet id kind r P H t u) : Quiet id kind r P H m u where
  position := second.position.trans first.position
  witness := second.witness.trans first.witness
  sound sound := second.sound (first.sound sound)
  live o e area here sound live := by
    refine second.live o e ?_ here (first.sound sound) (first.live o e area here sound live)
    rw [Layout.Area, first.witness]
    exact area
  dead o e far sound dead := by
    refine second.dead o e ?_ (first.sound sound) (first.dead o e far sound dead)
    rw [first.position]
    exact far
  present sound live := second.present (first.sound sound) (first.present sound live)

theorem Quiet.mono {id : Nat} {kind : Kind} {r r' : ℚ} {P P' H : Nat → Prop} (quiet : Quiet id kind r P H m t)
    (sub : ∀ e, P' e → P e) (le : r ≤ r') : Quiet id kind r' P' H m t :=
  { quiet with
    live := fun o e area here => quiet.live o e area (sub e here)
    dead := fun o e far => quiet.dead o e fun same aoi near => far same aoi (near.mono le) }

/-- An update of a boundary that saw nobody is quiet. -/
theorem Updated.quiet (updated : Updated (.boundary b) m t) {P : Node → Prop} {H : Nat → Prop} {r : ℚ}
    (unseen : Unseen m.layout b P) (short : ∀ a, |m.layout.range b a| ≤ r) (here : H b.origin)
    (lists : ∀ a c, c ∈ m.list a → H c.owner) :
    Quiet b.origin b.kind r (fun e => P (.entity e)) H m t := by
  refine ⟨updated.position, updated.witness, updated.sound, ?_, ?_, ?_⟩
  · intro o e area here sound live
    refine updated.live ?_ area sound live
    rintro b' - - (node | node) isfront was
    · cases node
    · cases node
      have saw := was .x
      rw [unseen e isfront .x here] at saw
      cases saw
  · intro o e far sound dead
    refine updated.dead ?_ sound dead
    rintro b' origin kind (node | node) is
    · cases node
    · cases node
      refine far origin.symm kind ?_
      intro a
      exact (Layout.isInRange_iff.1 (is a)).trans (short a)
  · intro sound live o e live'
    rcases updated.present lists here sound live' with old | ⟨entity, b', origin, boundary⟩
    · exact live o e old
    · exact ⟨origin ▸ boundary, entity⟩

theorem Quiet.of_eq {id : Nat} {kind : Kind} {r : ℚ} {P H : Nat → Prop} (position : t.layout.position = m.layout.position)
    (witness : t.layout.witness = m.layout.witness) (views : t.views = m.views) : Quiet id kind r P H m t where
  position := position
  witness := witness
  sound sound := views ▸ sound
  live _ _ _ _ _ live := views ▸ live
  dead _ _ _ _ dead := views ▸ dead
  present _ live o e live' := live o e (views ▸ live')

/-- A boundary that saw nobody enters whom it passes on the z axis on its way. -/
theorem Updated.enters_unseen (updated : Updated (.boundary b) m t) (unseen : Unseen m.layout b P) (here : P (.entity e))
    (other : e ≠ b.origin) (kind : b.kind = .aoi) (crossed : Crossed m .z (.boundary b) (.entity e))
    (is : m.layout.Is b (.entity e)) (area : m.layout.Area b.origin) (sound : m.views.Sound) : t.views.Live b.origin e := by
  refine updated.enters (.inr ⟨rfl, rfl⟩) crossed ?_ other kind ?_ is ?_ area sound
  · intro isfront
    constructor
    · rw [unseen e isfront .z here, is .z]
      exact Bool.false_ne_true
    · nofun
  · intro isfront was
    exact absurd (was .x) (by rw [unseen e isfront .x here]; exact Bool.false_ne_true)
  · rintro b' - hysteresis (node | node)
    · cases node
    · cases node
      rw [kind] at hysteresis
      cases hysteresis

end Steady

/-- The nodes of `P` are where they belong, and the entities among them not next to `FLT_MAX`. -/
structure Settled (m : Space) (P : Node → Prop) : Prop extends Steady m P where
  world : ∀ e, P (.entity e) → InWorld (m.layout.position e)

section Install

variable {m t : Space} {P : Node → Prop} {b : Boundary} {e : Nat} {old range : ℚ}

theorem InWorld.bounds {p : Axis → ℚ} (world : InWorld p) (a : Axis) : 1024 - FLT_MAX < p a ∧ p a < FLT_MAX - 1024 := by
  obtain ⟨low, high⟩ := abs_lt.1 (world a)
  constructor <;> linarith

/-- A boundary whose old coordinates are far from all entities saw nobody. -/
theorem Settled.unseen {l : Layout} (settled : Settled m P) (entities : ∀ e, l.old (.entity e) = m.layout.old (.entity e))
    (oldRange : l.oldRange b = fun _ => range) (boundary : l.old (.boundary b) = fun _ => old)
    (far : ∀ p, 1024 - FLT_MAX < p → p < FLT_MAX - 1024 → |range| < |p - (old - range)|) : Unseen l b P := by
  intro e isfront a here
  have there : l.old (.entity e) a = m.layout.position e a := by
    rw [entities, settled.old (.entity e) a here]
    rfl
  obtain ⟨low, high⟩ := (settled.world e here).bounds a
  have outside := far _ low high
  have center : l.old (.boundary b) a - l.oldRange b a = old - range := by rw [boundary, oldRange]
  rw [← there] at outside
  have range_eq : |l.oldRange b a| = |range| := by rw [oldRange]
  rw [← range_eq] at outside
  have was := Layout.wasInRange_iff center (ne_of_gt outside) isfront
  rw [Bool.eq_false_iff, ne_eq, was]
  exact not_le.2 outside

/-- A new boundary, at the entity itself. -/
theorem Settled.insert (settled : Settled m P) (new : ¬ P (.boundary b)) (origin : P (.entity b.origin))
    (range : m.layout.range b = fun _ => 0) (oldRange : m.layout.oldRange b = fun _ => 0) {H : Nat → Prop}
    (owned : ∀ c, P c → H c.owner) {r : ℚ} (nonneg : 0 ≤ r) :
    ∃ t, m.insert (.boundary b) = some t ∧ Updated (.boundary b) (m.head (.boundary b)) t ∧
      Settled t (fun c => c = .boundary b ∨ P c) ∧ Quiet b.origin b.kind r (fun e => P (.entity e)) H m t := by
  obtain ⟨t, run, updated, steady⟩ := settled.toSteady.insert new (by
    intro a same
    obtain ⟨low, -⟩ := (settled.world _ origin).bounds a
    have there : m.layout.position b.origin a + m.layout.range b a = -FLT_MAX := same
    rw [range, add_zero] at there
    linarith)
  have unseen : Unseen (m.head (.boundary b)).layout b P := by
    refine settled.unseen (fun _ => rfl) oldRange (Function.update_self _ _ _) ?_
    intro p low high
    rw [abs_zero, sub_zero, sub_neg_eq_add]
    exact lt_abs.2 (.inl (by linarith))
  have same : Quiet b.origin b.kind r (fun e => P (.entity e)) H m (m.head (.boundary b)) := .of_eq rfl rfl rfl
  refine ⟨t, run, updated, ⟨steady, ?_⟩, same.trans (updated.quiet unseen ?_ (owned _ origin) ?_)⟩
  · rintro e (node | here)
    · cases node
    · rw [updated.position]
      exact settled.world e here
  · intro a
    show |m.layout.range b a| ≤ r
    rw [range, abs_zero]
    exact nonneg
  · intro a c mem
    rcases List.mem_cons.1 mem with rfl | mem
    · exact owned (.entity b.origin) origin
    · exact owned c ((settled.mem a c).1 mem)

theorem xx_setBoundary (a : Axis) :
    (m.setBoundary b old range).layout.xx (.boundary b) a = m.layout.position b.origin a + range := by
  show _ + Function.update m.layout.range b (fun _ => range) b a = _
  rw [Function.update_self]
  rfl

theorem is_setBoundary : (m.setBoundary b old range).layout.Is b (.entity e) ↔
    Near |range| (m.layout.position b.origin) (m.layout.position e) := by
  refine forall_congr' fun a => ?_
  rw [Layout.isInRange_iff]
  show |m.layout.position e a - m.layout.position b.origin a| ≤ |Function.update m.layout.range b (fun _ => range) b a| ↔ _
  rw [Function.update_self]

/-- A boundary drawn out to a new range, from far away. -/
theorem Settled.draw (settled : Settled m P) (old range : ℚ) (here : P (.boundary b)) (origin : P (.entity b.origin))
    (far : ∀ p, 1024 - FLT_MAX < p → p < FLT_MAX - 1024 → p + range ≠ old ∧ |range| < |p - (old - range)|) {H : Nat → Prop}
    (owned : ∀ c, P c → H c.owner) :
    ∃ t, (m.setBoundary b old range).update (.boundary b) = some t ∧
      Updated (.boundary b) (m.setBoundary b old range) t ∧ Settled t P ∧ Unseen (m.setBoundary b old range).layout b P ∧
      Quiet b.origin b.kind |range| (fun e => P (.entity e)) H m t := by
  have xx : ∀ c a, c ≠ .boundary b → (m.setBoundary b old range).layout.xx c a = m.layout.xx c a := by
    intro c a other
    cases c with
    | entity e => rfl
    | boundary b' =>
      have other : b' ≠ b := fun same => other (congrArg _ same)
      show _ + Function.update m.layout.range b (fun _ => range) b' a = _
      rw [Function.update_of_ne other]
      rfl
  have lists : Lists (m.setBoundary b old range) P := ⟨settled.nodup, settled.mem, settled.sorted⟩
  obtain ⟨t, run, updated⟩ := update_spec (s := m.setBoundary b old range) (n := .boundary b) (by
    intro a
    refine lists.ready here ?_
    intro same
    obtain ⟨low, high⟩ := (settled.world _ origin).bounds a
    have start : (m.setBoundary b old range).layout.old (.boundary b) a = old := by
      show Function.update m.layout.old (.boundary b) (fun _ => old) (.boundary b) a = old
      rw [Function.update_self]
    rw [xx_setBoundary, start] at same
    exact absurd same (far _ low high).1)
  have unseen : Unseen (m.setBoundary b old range).layout b P :=
    settled.unseen (fun _ => rfl) (Function.update_self _ _ _) (Function.update_self _ _ _)
      fun p low high => (far p low high).2
  have same : Quiet b.origin b.kind |range| (fun e => P (.entity e)) H m (m.setBoundary b old range) := .of_eq rfl rfl rfl
  refine ⟨t, run, updated, ⟨updated.steady lists ?_ ?_ ?_, ?_⟩, unseen, same.trans (updated.quiet unseen ?_ (owned _ origin) ?_)⟩
  · intro c a here other
    rw [xx c a other]
    exact settled.coord c a here
  · intro c a here other
    rw [xx c a other, ← settled.old c a here]
    exact congrFun (Function.update_of_ne other _ _) a
  · intro b' here other
    have other : b' ≠ b := fun same => other (congrArg _ same)
    show Function.update m.layout.oldRange b _ b' = Function.update m.layout.range b _ b'
    rw [Function.update_of_ne other, Function.update_of_ne other]
    exact settled.oldRange b' here
  · intro e here
    rw [updated.position]
    exact settled.world e here
  · intro a
    show |Function.update m.layout.range b (fun _ => range) b a| ≤ |range|
    rw [Function.update_self]
  · intro a c mem
    exact owned c ((settled.mem a c).1 mem)

/-- A boundary that is not in the lists yet. -/
theorem Settled.newBoundary (settled : Settled m P) (new : ¬ P (.boundary b)) : Settled (m.newBoundary b) P := by
  have other : ∀ c, P c → c ≠ .boundary b := fun c here same => new (same ▸ here)
  have other' : ∀ b', P (.boundary b') → b' ≠ b := fun b' here same => new (same ▸ here)
  have coord : ∀ c, P c → (m.newBoundary b).coord c = m.coord c := fun c here => Function.update_of_ne (other c here) _ _
  have xx : ∀ c a, P c → (m.newBoundary b).layout.xx c a = m.layout.xx c a := by
    intro c a here
    cases c with
    | entity e => rfl
    | boundary b' =>
      show _ + Function.update m.layout.range b _ b' a = _
      rw [Function.update_of_ne (other' b' here)]
      rfl
  refine ⟨⟨⟨settled.nodup, settled.mem, ?_⟩, ?_, ?_, ?_⟩, settled.world⟩
  · intro a
    refine List.Pairwise.imp_of_mem ?_ (settled.sorted a)
    intro c d left right le
    rw [coord c ((settled.mem a c).1 left), coord d ((settled.mem a d).1 right)]
    exact le
  · intro c a here
    rw [coord c here, xx c a here]
    exact settled.coord c a here
  · intro c a here
    rw [xx c a here, ← settled.old c a here]
    exact congrFun (Function.update_of_ne (other c here) _ _) a
  · intro b' here
    show Function.update m.layout.oldRange b _ b' = Function.update m.layout.range b _ b'
    rw [Function.update_of_ne (other' b' here), Function.update_of_ne (other' b' here)]
    exact settled.oldRange b' here

/-- Both boundaries of a trigger are in the lists, at the entity. -/
structure Hung (id : Nat) (kind : Kind) (r : ℚ) (P : Node → Prop) (H : Nat → Prop) (m t : Space) : Prop where
  settled : Settled t fun n => n = .boundary ⟨id, kind, .negative⟩ ∨ n = .boundary ⟨id, kind, .positive⟩ ∨ P n
  ranges : ∀ side, t.layout.range ⟨id, kind, side⟩ = fun _ => 0
  others : ∀ b, (∀ side, b ≠ ⟨id, kind, side⟩) → t.layout.range b = m.layout.range b
  watcherNodes : t.watcherNodes =
    Function.update m.watcherNodes id (m.watcherNodes id ++ [⟨id, kind, .positive⟩, ⟨id, kind, .negative⟩])
  quiet : Quiet id kind r (fun e => P (.entity e)) H m t
  before : ∀ e a, P (.entity e) → m.layout.position id a ≤ m.layout.position e a →
    Before (t.list a) (.boundary ⟨id, kind, .positive⟩) (.entity e)

theorem hang {id : Nat} {kind : Kind} {r : ℚ} {H : Nat → Prop} (settled : Settled m P) (here : P (.entity id))
    (new : ∀ side, ¬ P (.boundary ⟨id, kind, side⟩)) (positive : 0 < r) (owned : ∀ c, P c → H c.owner) :
    ∃ t u, ((m.newBoundary ⟨id, kind, .positive⟩).newBoundary ⟨id, kind, .negative⟩).insert
        (.boundary ⟨id, kind, .positive⟩) = some t ∧ t.insert (.boundary ⟨id, kind, .negative⟩) = some u ∧
      Hung id kind r P H m u := by
  obtain ⟨m₀, created⟩ : ∃ m₀, m₀ = (m.newBoundary ⟨id, kind, .positive⟩).newBoundary ⟨id, kind, .negative⟩ := ⟨_, rfl⟩
  have range : ∀ side, m₀.layout.range ⟨id, kind, side⟩ = fun _ => 0 := by
    rintro (_ | _)
    · rw [created]
      exact Function.update_self _ _ _
    · rw [created]
      exact (Function.update_of_ne (by simp) _ _).trans (Function.update_self _ _ _)
  have oldRange : ∀ side, m₀.layout.oldRange ⟨id, kind, side⟩ = fun _ => 0 := by
    rintro (_ | _)
    · rw [created]
      exact Function.update_self _ _ _
    · rw [created]
      exact (Function.update_of_ne (by simp) _ _).trans (Function.update_self _ _ _)
  have settled₀ : Settled m₀ P := created ▸ (settled.newBoundary (new .positive)).newBoundary (new .negative)
  obtain ⟨t, run, updated, settled₁, quiet₁⟩ := settled₀.insert (new .positive) here (range .positive)
    (oldRange .positive) owned positive.le
  have new' : ¬ (Node.boundary ⟨id, kind, .negative⟩ = .boundary ⟨id, kind, .positive⟩ ∨ P (.boundary ⟨id, kind, .negative⟩)) := by
    rintro (node | there)
    · cases node
    · exact new .negative there
  have range₁ : t.layout.range = m₀.layout.range := updated.range
  have oldRange₁ : t.layout.oldRange ⟨id, kind, .negative⟩ = fun _ => 0 := by
    rw [updated.oldRange ((oldRange .negative).trans (range .negative).symm)]
    exact range .negative
  have owned' : ∀ c, c = .boundary ⟨id, kind, .positive⟩ ∨ P c → H c.owner := by
    rintro c (rfl | there)
    · exact owned (.entity id) here
    · exact owned c there
  obtain ⟨u, run', updated', settled₂, quiet₂⟩ := settled₁.insert new' (.inr here) (by rw [range₁]; exact range .negative)
    oldRange₁ owned' positive.le
  have range₂ : u.layout.range = m₀.layout.range := updated'.range.trans range₁
  refine ⟨t, u, created ▸ run, run', settled₂, ?_, ?_, ?_, ?_, ?_⟩
  · rw [range₂]
    exact range
  · intro b other
    rw [range₂, created]
    exact (Function.update_of_ne (other .negative) _ _).trans (Function.update_of_ne (other .positive) _ _)
  · rw [updated'.watcherNodes]
    show t.watcherNodes = _
    rw [updated.watcherNodes]
    show m₀.watcherNodes = _
    rw [created]
    simp [Space.newBoundary]
  · have same : Quiet id kind r (fun e => P (.entity e)) H m m₀ := created ▸ .of_eq rfl rfl rfl
    exact same.trans (quiet₁.trans (quiet₂.mono (fun e there => .inr there) (le_refl r)))
  · intro e a there le
    have entity : Node.entity e ∈ m₀.list a := (settled₀.mem a _).2 there
    have first : Before (t.list a) (.boundary ⟨id, kind, .positive⟩) (.entity e) := by
      refine (updated.lined a).kept _ (before_cons entity) ?_
      have position : m₀.layout.position = m.layout.position := by rw [created]; rfl
      have other : Node.entity e ≠ .boundary ⟨id, kind, .positive⟩ := nofun
      rw [xx_head, coord_head other, settled₀.coord _ a there]
      show m₀.layout.position id a + m₀.layout.range _ a ≤ m₀.layout.position e a
      rw [range, add_zero, position]
      exact le
    exact updated'.before (by simp) (by simp) (first.trans (List.sublist_cons_self _ _))

/-- What `install` does, with the range `r`, in a space with the nodes `P` of the entities `H`. -/
structure Installed (id : Nat) (kind : Kind) (r : ℚ) (P : Node → Prop) (H : Nat → Prop) (m t : Space) : Prop where
  settled : Settled t fun n => n = .boundary ⟨id, kind, .negative⟩ ∨ n = .boundary ⟨id, kind, .positive⟩ ∨ P n
  ranges : ∀ side, t.layout.range ⟨id, kind, side⟩ = fun _ => side.sign * r
  others : ∀ b, (∀ side, b ≠ ⟨id, kind, side⟩) → t.layout.range b = m.layout.range b
  watcherNodes : t.watcherNodes =
    Function.update m.watcherNodes id (m.watcherNodes id ++ [⟨id, kind, .positive⟩, ⟨id, kind, .negative⟩])
  quiet : Quiet id kind r (fun e => P (.entity e)) H m t
  enters : kind = .aoi → ∀ e, e ≠ id → P (.entity e) → Near r (m.layout.position id) (m.layout.position e) →
    |m.layout.position e .z - m.layout.position id .z| ≠ r → m.layout.Area id → m.views.Sound → t.views.Live id e

/-- **`install`** draws the boundaries out, past the entities in range. -/
theorem install_spec {id : Nat} {kind : Kind} {r : ℚ} {H : Nat → Prop} (settled : Settled m P) (here : P (.entity id))
    (new : ∀ side, ¬ P (.boundary ⟨id, kind, side⟩)) (positive : 0 < r) (bound : r ≤ 512)
    (owned : ∀ c, P c → H c.owner) : ∃ t, m.install id kind r = some t ∧ Installed id kind r P H m t := by
  obtain ⟨t₁, t₂, run₁, run₂, hung⟩ := hang settled here new positive owned
  have owned' : ∀ c, c = .boundary ⟨id, kind, .negative⟩ ∨ c = .boundary ⟨id, kind, .positive⟩ ∨ P c → H c.owner := by
    rintro c (rfl | rfl | there)
    · exact owned (.entity id) here
    · exact owned (.entity id) here
    · exact owned c there
  obtain ⟨t₃, run₃, updated₃, settled₃, unseen₃, quiet₃⟩ := hung.settled.draw (b := ⟨id, kind, .negative⟩) (-FLT_MAX) (-r)
    (.inl rfl) (.inr (.inr here)) (by
      intro p low high
      refine ⟨by intro same; linarith, ?_⟩
      rw [abs_neg, abs_of_pos positive]
      exact lt_abs.2 (.inl (by linarith))) owned'
  obtain ⟨t₄, run₄, updated₄, settled₄, unseen₄, quiet₄⟩ := settled₃.draw (b := ⟨id, kind, .positive⟩) FLT_MAX r
    (.inr (.inl rfl)) (.inr (.inr here)) (by
      intro p low high
      refine ⟨by intro same; linarith, ?_⟩
      rw [abs_of_pos positive]
      exact lt_abs.2 (.inr (by linarith))) owned'
  rw [abs_neg, abs_of_pos positive] at quiet₃
  rw [abs_of_pos positive] at quiet₄
  have sub : ∀ e, P (.entity e) → Node.entity e = .boundary ⟨id, kind, .negative⟩ ∨
    Node.entity e = .boundary ⟨id, kind, .positive⟩ ∨ P (.entity e) := fun e there => .inr (.inr there)
  have quiet₃ : Quiet id kind r (fun e => P (.entity e)) H t₂ t₃ := quiet₃.mono sub (le_refl r)
  have quiet₄ : Quiet id kind r (fun e => P (.entity e)) H t₃ t₄ := quiet₄.mono sub (le_refl r)
  have range₃ : t₃.layout.range = Function.update t₂.layout.range ⟨id, kind, .negative⟩ fun _ => -r := updated₃.range
  have range₄ : t₄.layout.range = Function.update t₃.layout.range ⟨id, kind, .positive⟩ fun _ => r := updated₄.range
  refine ⟨t₄, ?_, settled₄, ?_, ?_, ?_, hung.quiet.trans (quiet₃.trans quiet₄), ?_⟩
  · simp only [Space.install, run₁, run₂, run₃, Option.bind_eq_bind, Option.bind_some]
    exact run₄
  · rintro (_ | _)
    · have other : (⟨id, kind, .negative⟩ : Boundary) ≠ ⟨id, kind, .positive⟩ := nofun
      rw [range₄, Function.update_of_ne other, range₃, Function.update_self, Side.sign]
      funext a
      rw [neg_one_mul]
    · rw [range₄, Function.update_self, Side.sign]
      funext a
      rw [one_mul]
  · intro b other
    rw [range₄, Function.update_of_ne (other .positive), range₃, Function.update_of_ne (other .negative), hung.others b other]
  · exact (updated₄.watcherNodes.trans updated₃.watcherNodes).trans hung.watcherNodes
  · intro aoi e other there near untied area sound
    have inside : |m.layout.position e .z - m.layout.position id .z| < r := lt_of_le_of_ne (near .z) untied
    obtain ⟨low, high⟩ := abs_lt.1 inside
    have position₃ : t₃.layout.position = m.layout.position := quiet₃.position.trans hung.quiet.position
    have area₂ : t₂.layout.Area id := by rw [Layout.Area, hung.quiet.witness]; exact area
    have area₃ : t₃.layout.Area id := by rw [Layout.Area, quiet₃.witness]; exact area₂
    have sound₂ := hung.quiet.sound sound
    rcases lt_or_ge (m.layout.position e .z) (m.layout.position id .z) with left | right
    · -- an entity on the left is passed by the negative boundary
      refine quiet₄.live id e area₃ there (quiet₃.sound sound₂) ?_
      refine updated₃.enters_unseen unseen₃ (sub e there) other aoi (.inr ⟨?_, ?_⟩) ?_ area₂ sound₂
      · refine hung.settled.before (sub e there) (.inl rfl) ?_
        rw [hung.settled.coord _ _ (sub e there), hung.settled.coord _ _ (.inl rfl)]
        show t₂.layout.position e .z < t₂.layout.position id .z + t₂.layout.range ⟨id, kind, .negative⟩ .z
        rw [hung.quiet.position, hung.ranges, add_zero]
        exact left
      · rw [xx_setBoundary]
        show t₂.layout.position id .z + -r < t₂.coord (.entity e) .z
        rw [hung.settled.coord _ _ (sub e there)]
        show t₂.layout.position id .z + -r < t₂.layout.position e .z
        rw [hung.quiet.position]
        linarith
      · rw [is_setBoundary, abs_neg, abs_of_pos positive, hung.quiet.position]
        exact near
    · refine updated₄.enters_unseen unseen₄ (sub e there) other aoi (.inl ⟨?_, ?_⟩) ?_ area₃ (quiet₃.sound sound₂)
      · exact updated₃.before (by simp) (by simp) (hung.before e .z there right)
      · rw [xx_setBoundary]
        show t₃.coord (.entity e) .z < t₃.layout.position id .z + r
        rw [settled₃.coord _ _ (sub e there)]
        show t₃.layout.position e .z < t₃.layout.position id .z + r
        rw [position₃]
        linarith
      · rw [is_setBoundary, abs_of_pos positive, position₃]
        exact near

end Install

end GameServer.Aoi

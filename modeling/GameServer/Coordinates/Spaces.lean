import GameServer.Coordinates.Triggers

/-!
# The operations of the space

`Inv` ties the pointers of the triggers to the nodes they have: none, or two boundaries. It is
kept by what a witness does with its triggers and by entities that come and go, as long as a
trigger is installed around the node that its entity has now.
-/

namespace GameServer.Coordinates.Space

open Aoi (Axis Kind FLT_MAX)

variable {s t u : Space} {id : Nat} {kind : Kind} {n : Node}

/-- A trigger has no boundary, or two, which are all that have it. -/
inductive Holds (t : Trigger) (mine : Node → Prop) : Prop where
  | free (positive : t.positive = none) (negative : t.negative = none) (none' : ∀ n, ¬ mine n)
  | full (p q : Node) (apart : p ≠ q) (positive : t.positive = some p) (negative : t.negative = some q)
      (both : ∀ n, mine n ↔ n = p ∨ n = q)

structure Inv (s : Space) : Prop where
  keeps : s.Keeps []
  holds : ∀ id kind, Holds (s.trigger id kind) fun n => s.pRangeTrigger n = some (id, kind)

theorem Holds.congr {t : Trigger} {mine mine' : Node → Prop} (holds : Holds t mine) (same : ∀ n, mine' n ↔ mine n) :
    Holds t mine' := by
  cases holds with
  | free positive negative none' => exact .free positive negative fun n have' => none' n ((same n).1 have')
  | full p q apart positive negative both => exact .full p q apart positive negative fun n => (same n).trans (both n)

/-- What an operation on one trigger leaves alone. -/
structure Aside (id : Nat) (kind : Kind) (s t : Space) : Prop where
  position : t.position = s.position
  entityNode : t.entityNode = s.entityNode
  aoiRadius : t.aoiRadius = s.aoiRadius
  contains : ∀ id, t.contains id = s.contains id
  trigger : ∀ id' kind', ¬ (id' = id ∧ kind' = kind) → t.trigger id' kind' = s.trigger id' kind'

theorem Aside.refl : Aside id kind s s := ⟨rfl, rfl, rfl, fun _ => rfl, fun _ _ _ => rfl⟩

theorem Aside.trans (first : Aside id kind s t) (second : Aside id kind t u) : Aside id kind s u :=
  ⟨second.position.trans first.position, second.entityNode.trans first.entityNode,
    second.aoiRadius.trans first.aoiRadius, fun id => (second.contains id).trans (first.contains id),
    fun id' kind' other => (second.trigger id' kind' other).trans (first.trigger id' kind' other)⟩

theorem aside_setTrigger {t : Trigger} : Aside id kind s (s.setTrigger id kind t) := by
  refine ⟨rfl, rfl, rfl, fun _ => rfl, ?_⟩
  intro id' kind' other
  rw [trigger_setTrigger, if_neg other]

theorem Rest.aside (rest : Rest s t) : Aside id kind s t :=
  ⟨rest.position, rest.entityNode, rest.aoiRadius, rest.contains, fun _ _ _ => by rw [rest.trigger]⟩

/-- A trigger is changed, and which nodes have it. -/
theorem Inv.of_trigger {r : Trigger} (inv : s.Inv) (keeps : (t.setTrigger id kind r).Keeps [])
    (trigger : t.trigger = s.trigger)
    (others : ∀ n id' kind', ¬ (id' = id ∧ kind' = kind) →
      (t.pRangeTrigger n = some (id', kind') ↔ s.pRangeTrigger n = some (id', kind')))
    (holds : Holds r fun n => t.pRangeTrigger n = some (id, kind)) : (t.setTrigger id kind r).Inv := by
  refine ⟨keeps, ?_⟩
  intro id' kind'
  rw [trigger_setTrigger]
  split_ifs with same
  · obtain ⟨rfl, rfl⟩ := same
    exact holds
  · rw [trigger]
    exact (inv.holds id' kind').congr fun n => others n id' kind' same

/-- `RangeTrigger::uninstall`. -/
theorem Inv.uninstall (inv : s.Inv) (id : Nat) (kind : Kind) : ∃ t, s.uninstall id kind = some t ∧ t.Inv ∧ Aside id kind s t ∧
    t.trigger id kind = { s.trigger id kind with positive := none, negative := none } := by
  have around := inv.keeps.origin id kind
  cases inv.holds id kind with
  | free positive negative none' =>
    refine ⟨s.setTrigger id kind { s.trigger id kind with positive := none, negative := none }, ?_, ?_, aside_setTrigger, ?_⟩
    · simp [Space.uninstall, positive, negative, uninstallBoundary]
    · exact inv.of_trigger (inv.keeps.setTrigger around (.inl rfl)) rfl (fun _ _ _ _ => Iff.rfl) (.free rfl rfl none')
    · rw [trigger_setTrigger, if_pos ⟨rfl, rfl⟩]
  | full p q apart positive negative both =>
    obtain ⟨s₁, run₁, keeps₁, rest₁, mine₁⟩ := inv.keeps.uninstallBoundary ((both p).2 (.inl rfl))
    have attached : s₁.pRangeTrigger q = some (id, kind) := by
      rw [mine₁, if_neg apart.symm]
      exact (both q).2 (.inr rfl)
    obtain ⟨s₂, run₂, keeps₂, rest₂, mine₂⟩ := keeps₁.uninstallBoundary attached
    have trigger : s₂.trigger = s.trigger := rest₂.trigger.trans rest₁.trigger
    have mine : ∀ n, s₂.pRangeTrigger n = if n = q ∨ n = p then none else s.pRangeTrigger n := by
      intro n
      rw [mine₂, mine₁, ite_or]
    refine ⟨s₂.setTrigger id kind { s.trigger id kind with positive := none, negative := none }, ?_, ?_, ?_, ?_⟩
    · rw [Space.uninstall, positive, run₁, Option.bind_eq_bind, Option.bind_some, rest₁.trigger, negative, run₂,
        Option.bind_some, trigger]
      rfl
    · refine inv.of_trigger (keeps₂.setTrigger around (.inl (by rw [trigger]))) trigger ?_ (.free rfl rfl ?_)
      · intro n id' kind' other
        rw [mine]
        split_ifs with gone
        · have has := (both n).2 gone.symm
          rw [has]
          simp only [Option.some.injEq, Prod.mk.injEq, false_iff]
          exact fun same => other ⟨same.1.symm, same.2.symm⟩
        · exact Iff.rfl
      · intro n
        rw [mine]
        split_ifs with gone
        · intro has
          cases has
        · exact fun has => gone ((both n).1 has).symm
    · exact (rest₁.aside.trans rest₂.aside).trans aside_setTrigger
    · rw [trigger_setTrigger, if_pos ⟨rfl, rfl⟩]

theorem Inv.rest (inv : s.Inv) (keeps : t.Keeps []) (rest : Rest s t) (same : t.pRangeTrigger = s.pRangeTrigger) :
    t.Inv := by
  refine ⟨keeps, ?_⟩
  rw [rest.trigger, same]
  exact inv.holds

/-- A trigger gets another range or origin. -/
theorem Inv.setTrigger {r : Trigger} (inv : s.Inv) (keeps : (s.setTrigger id kind r).Keeps [])
    (positive : r.positive = (s.trigger id kind).positive) (negative : r.negative = (s.trigger id kind).negative) :
    (s.setTrigger id kind r).Inv := by
  refine inv.of_trigger keeps rfl (fun _ _ _ _ => Iff.rfl) ?_
  cases inv.holds id kind with
  | free positive' negative' none' => exact .free (positive.trans positive') (negative.trans negative') none'
  | full p q apart positive' negative' both =>
    exact .full p q apart (positive.trans positive') (negative.trans negative') both

theorem fabs_number {x : Coordinate} (number : x ≠ .nan) : x.fabs ≠ .nan := by
  cases x with
  | nan => exact absurd rfl number
  | num v => nofun

theorem neg_number {x : Coordinate} (number : x ≠ .nan) : x.neg ≠ .nan := by
  cases x with
  | nan => exact absurd rfl number
  | num v => nofun

/-- `RangeTrigger::update`. -/
theorem Inv.updateTrigger (inv : s.Inv) (id : Nat) (kind : Kind) (xz : Coordinate)
    (number : (s.trigger id kind).isInstalled = true → xz ≠ .nan) :
    ∃ t, s.updateTrigger id kind xz = some t ∧ t.Inv ∧ Aside id kind s t ∧
      t.trigger id kind = { s.trigger id kind with range := xz.fabs } := by
  let r : Trigger := { s.trigger id kind with range := xz.fabs }
  have keeps : (s.setTrigger id kind r).Keeps [] := inv.keeps.setTrigger (inv.keeps.origin id kind) (.inl rfl)
  have inv' : (s.setTrigger id kind r).Inv := inv.setTrigger keeps rfl rfl
  have here : (s.setTrigger id kind r).trigger id kind = r := by rw [trigger_setTrigger, if_pos ⟨rfl, rfl⟩]
  have run : s.updateTrigger id kind xz =
      ((s.setTrigger id kind r).moveBoundary xz.fabs (s.trigger id kind).positive).bind
        fun t => t.moveBoundary xz.fabs.neg (s.trigger id kind).negative := rfl
  cases inv.holds id kind with
  | free positive negative none' =>
    refine ⟨s.setTrigger id kind r, ?_, inv', aside_setTrigger, here⟩
    rw [run, positive, negative]
    rfl
  | full p q apart positive negative both =>
    have xz' : xz ≠ .nan := number (by rw [Trigger.isInstalled, positive, negative]; rfl)
    obtain ⟨s₁, run₁, keeps₁, rest₁, mine₁⟩ :=
      keeps.moveBoundary (n := p) ((both p).2 (.inl rfl)) List.not_mem_nil (fabs_number xz')
    have attached : s₁.pRangeTrigger q = some (id, kind) := by
      rw [mine₁]
      exact (both q).2 (.inr rfl)
    obtain ⟨s₂, run₂, keeps₂, rest₂, mine₂⟩ :=
      keeps₁.moveBoundary attached List.not_mem_nil (neg_number (fabs_number xz'))
    refine ⟨s₂, ?_, ?_, (aside_setTrigger.trans rest₁.aside).trans rest₂.aside, ?_⟩
    · rw [run, positive, negative, run₁, Option.bind_some]
      exact run₂
    · exact (inv'.rest keeps₁ rest₁ mine₁).rest keeps₂ rest₂ mine₂
    · rw [rest₂.trigger, rest₁.trigger]
      exact here

/-- `install` makes a boundary and points to it. -/
theorem Keeps.make {pend : List Node} {r : Trigger} (keeps : s.Keeps pend) (inside : s.contains id = true)
    (origin : (s.trigger id kind).origin = s.entityNode id) (same : r.origin = (s.trigger id kind).origin) :
    ∃ t, (s.newBoundary id kind).setTrigger id kind r = t ∧ t.Keeps (.boundary id (s.made id) :: pend) ∧
      t.made id = s.made id + 1 ∧ Aside id kind s t ∧ t.trigger id kind = r ∧
      ∀ m, t.pRangeTrigger m = if m = .boundary id (s.made id) then some (id, kind) else s.pRangeTrigger m := by
  have fresh := (keeps.made (.boundary id (s.made id)) le_rfl).1
  refine ⟨_, rfl, (keeps.newBoundary inside origin).setTrigger ?_ (.inl same), Function.update_self .., ⟨rfl, rfl, rfl, ?_, ?_⟩,
    ?_, fun m => Function.update_apply ..⟩
  · rw [same]
    exact keeps.origin id kind
  · exact fun id' => @contains_newBoundary s id kind fresh id'
  · intro id' kind' other
    rw [trigger_setTrigger, if_neg other]
    rfl
  · rw [trigger_setTrigger, if_pos ⟨rfl, rfl⟩]

/-- `RangeTrigger::install` of a trigger that is not installed, around the node that its entity has. -/
theorem Inv.install (inv : s.Inv) (missing : (s.trigger id kind).isInstalled = false) (inside : s.contains id = true)
    (origin : (s.trigger id kind).origin = s.entityNode id) (number : (s.trigger id kind).range ≠ .nan) :
    ∃ t, s.install id kind = some t ∧ t.Inv ∧ Aside id kind s t := by
  cases inv.holds id kind with
  | full p q apart positive negative both =>
    rw [Trigger.isInstalled, positive, negative] at missing
    cases missing
  | free positive negative none' =>
    -- the two boundaries are made
    obtain ⟨s₁, eq₁, keeps₁, made₁, aside₁, trigger₁, mine₁⟩ :=
      inv.keeps.make (r := { s.trigger id kind with positive := some (.boundary id (s.made id)) }) inside origin rfl
    obtain ⟨s₂, eq₂, keeps₂, -, aside₂, trigger₂, mine₂⟩ :=
      keeps₁.make (r := { s₁.trigger id kind with negative := some (.boundary id (s₁.made id)) })
        ((aside₁.contains id).trans inside) (by rw [trigger₁, aside₁.entityNode]; exact origin) rfl
    have make₁ : s.makePositive id kind = (s₁, .boundary id (s.made id)) := by
      rw [makePositive, positive, ← eq₁]
    have make₂ : s₁.makeNegative id kind = (s₂, .boundary id (s₁.made id)) := by
      have negative₁ : (s₁.trigger id kind).negative = none := by
        rw [trigger₁]
        exact negative
      rw [makeNegative, negative₁, ← eq₂]
    generalize negative' : Node.boundary id (s₁.made id) = q at *
    generalize positive' : Node.boundary id (s.made id) = p at *
    have apart : p ≠ q := by
      rw [← positive', ← negative', made₁]
      simp
    have range₂ : (s₂.trigger id kind).range = (s.trigger id kind).range := by rw [trigger₂, trigger₁]
    have attachedP : s₂.pRangeTrigger p = some (id, kind) := by rw [mine₂, if_neg apart, mine₁, if_pos rfl]
    have attachedQ : s₂.pRangeTrigger q = some (id, kind) := by rw [mine₂, if_pos rfl]
    -- they go to the front of the lists and from there to their places
    obtain ⟨s₃, run₃, keeps₃, rest₃, mine₃⟩ := keeps₂.insertBoundary attachedP (by simp)
    obtain ⟨s₄, run₄, keeps₄, rest₄, mine₄⟩ :=
      keeps₃.insertBoundary (mine₃ ▸ attachedQ) (by simp [apart.symm])
    have placed : (([q, p].filter (· ≠ p)).filter (· ≠ q)) = [] := by simp [apart.symm]
    rw [placed] at keeps₄
    have range₄ : (s₄.trigger id kind).range = (s.trigger id kind).range := by rw [rest₄.trigger, rest₃.trigger, range₂]
    obtain ⟨s₅, run₅, keeps₅, rest₅, mine₅⟩ := keeps₄.extend (.num (-FLT_MAX)) (mine₄ ▸ mine₃ ▸ attachedQ)
      List.not_mem_nil (neg_number number)
    obtain ⟨s₆, run₆, keeps₆, rest₆, mine₆⟩ := keeps₅.extend (.num FLT_MAX) (mine₅ ▸ mine₄ ▸ mine₃ ▸ attachedP)
      List.not_mem_nil number
    have range₅ : (s₅.trigger id kind).range = (s.trigger id kind).range := by rw [rest₅.trigger, range₄]
    have trigger₆ : s₆.trigger = s₂.trigger := by
      rw [rest₆.trigger, rest₅.trigger, rest₄.trigger, rest₃.trigger]
    have mine : s₆.pRangeTrigger = s₂.pRangeTrigger := by rw [mine₆, mine₅, mine₄, mine₃]
    have aside : Aside id kind s s₆ :=
      ((((aside₁.trans aside₂).trans rest₃.aside).trans rest₄.aside).trans rest₅.aside).trans rest₆.aside
    refine ⟨s₆, ?_, ⟨keeps₆, ?_⟩, aside⟩
    · have ready : ¬ (s.system.freed (.entity (s.trigger id kind).origin) = true ∨
          (!s.system.inSystem (.entity (s.trigger id kind).origin)) = true) := by
        rw [origin, (inv.keeps.alive id).1]
        simpa [contains] using inside
      rw [Space.install]
      simp only [ready, if_false, make₁, make₂, Option.bind_eq_bind, Option.bind_some, run₃, run₄, range₄,
        run₅, range₅]
      exact run₆
    · intro id' kind'
      rw [mine]
      by_cases same : id' = id ∧ kind' = kind
      · obtain ⟨rfl, rfl⟩ := same
        rw [trigger₆, trigger₂, trigger₁]
        refine .full p q apart rfl rfl ?_
        intro n
        rw [mine₂, mine₁]
        split_ifs with here there
        · simp [here]
        · simp [there]
        · simp [here, there, none' n]
      · rw [aside.trigger id' kind' same]
        refine (inv.holds id' kind').congr ?_
        intro n
        have freshP : s.pRangeTrigger p = none := positive' ▸ inv.keeps.unmade le_rfl
        have freshQ : s.pRangeTrigger q = none := negative' ▸ inv.keeps.unmade (made₁ ▸ Nat.le_succ _)
        have apart' : some (id, kind) ≠ some (id', kind') := by
          intro both
          obtain ⟨rfl, rfl⟩ := Prod.mk.inj (Option.some.inj both)
          exact same ⟨rfl, rfl⟩
        rw [mine₂, mine₁]
        split_ifs with here there
        · simp [here, freshQ, apart']
        · simp [there, freshP, apart']
        · exact Iff.rfl

theorem Inv.none_of_missing (inv : s.Inv) (missing : (s.trigger id kind).positive = none) :
    ∀ n, s.pRangeTrigger n ≠ some (id, kind) := by
  cases inv.holds id kind with
  | free _ _ none' => exact none'
  | full p q _ positive _ _ =>
    rw [missing] at positive
    cases positive

/-- `RangeTrigger::reinstall`, around the node that the entity has. -/
theorem Inv.reinstall (inv : s.Inv) (kind : Kind) (inside : s.contains id = true) (number : (s.trigger id kind).range ≠ .nan) :
    ∃ t, s.reinstall id kind (s.entityNode id) = some t ∧ t.Inv ∧ Aside id kind s t := by
  obtain ⟨s₁, run₁, inv₁, aside₁, trigger₁⟩ := inv.uninstall id kind
  have positive : (s₁.trigger id kind).positive = none := by rw [trigger₁]
  have around : (s.entityNode id).id = id := (inv.keeps.node id).1
  let r : Trigger := { s₁.trigger id kind with origin := s.entityNode id }
  have here : (s₁.setTrigger id kind r).trigger id kind = r := by rw [trigger_setTrigger, if_pos ⟨rfl, rfl⟩]
  have keeps₂ : (s₁.setTrigger id kind r).Keeps [] :=
    inv₁.keeps.setTrigger around (.inr (inv₁.none_of_missing positive))
  have inv₂ : (s₁.setTrigger id kind r).Inv := inv₁.setTrigger keeps₂ rfl rfl
  have missing : ((s₁.setTrigger id kind r).trigger id kind).isInstalled = false := by
    rw [here, Trigger.isInstalled]
    simp only [r, positive]
    rfl
  have origin : ((s₁.setTrigger id kind r).trigger id kind).origin = (s₁.setTrigger id kind r).entityNode id := by
    rw [here]
    exact (congrFun aside₁.entityNode id).symm
  have range : ((s₁.setTrigger id kind r).trigger id kind).range ≠ .nan := by
    rw [here]
    simp only [r, trigger₁]
    exact number
  obtain ⟨t, run, invT, asideT⟩ := inv₂.install missing ((aside₁.contains id).trans inside) origin range
  refine ⟨t, ?_, invT, (aside₁.trans aside_setTrigger).trans asideT⟩
  rw [Space.reinstall, run₁, Option.bind_eq_bind, Option.bind_some]
  exact run

/-- `installAOITrigger`. -/
theorem Inv.installAOITrigger (inv : s.Inv) (inside : s.contains id = true)
    (number : ¬ (s.aoiRadius id).le (.num 0) = true → ∀ kind, (s.trigger id kind).range ≠ .nan) :
    ∃ t, s.installAOITrigger id = some t ∧ t.Inv := by
  rw [Space.installAOITrigger]
  split_ifs with small
  · exact ⟨s, rfl, inv⟩
  · obtain ⟨s₁, run₁, inv₁, aside₁⟩ := inv.reinstall .hysteresis inside (number small .hysteresis)
    have range : (s₁.trigger id .aoi).range ≠ .nan := by
      rw [aside₁.trigger id .aoi (by simp)]
      exact number small .aoi
    obtain ⟨t, run, invT, -⟩ := inv₁.reinstall .aoi ((aside₁.contains id).trans inside) range
    refine ⟨t, ?_, invT⟩
    rw [run₁, Option.bind_eq_bind, Option.bind_some]
    exact run

/-- `uninstallAOITrigger`. -/
theorem Inv.uninstallAOITrigger (inv : s.Inv) (id : Nat) : ∃ t, s.uninstallAOITrigger id = some t ∧ t.Inv ∧
    t.entityNode = s.entityNode ∧ (∀ id, t.contains id = s.contains id) ∧
    ∀ kind, (t.trigger id kind).positive = none := by
  obtain ⟨s₁, run₁, inv₁, aside₁, trigger₁⟩ := inv.uninstall id .aoi
  obtain ⟨t, run, invT, aside, trigger⟩ := inv₁.uninstall id .hysteresis
  refine ⟨t, ?_, invT, aside.entityNode.trans aside₁.entityNode,
    fun id => (aside.contains id).trans (aside₁.contains id), ?_⟩
  · rw [Space.uninstallAOITrigger, run₁, Option.bind_eq_bind, Option.bind_some]
    exact run
  · intro kind
    cases kind with
    | aoi => rw [aside.trigger id .aoi (by simp), trigger₁]
    | hysteresis => rw [trigger]

end GameServer.Coordinates.Space

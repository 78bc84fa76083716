import GameServer.Timers.LayeringSlots

/-!
# Every timer in its place

`Inv` ties the lists to the timers: a timer that is linked is in exactly one list,
once, and a timer in a slot is `Placed` there. It is stated for the moments inside
`__Cascade` and `__AddTimer` too: `tmp` is the list of timers taken out of a slot and
not yet added again, `but` a timer that is about to be linked, and `done l` says that
the slot of `l` for this tick has been emptied.
-/

namespace GameServer.Timers.Layering

/-- The lists a timer can be linked in. -/
inductive Place where
  | slot (l : Level) (i : Nat)
  | work
  | tmp
  deriving DecidableEq

def CTimerLayering.list (c : CTimerLayering) (tmp : List Handle) : Place → List Handle
  | .slot l i => c.vec l i
  | .work => c.work_list
  | .tmp => tmp

/-- Where a timer may be: in a right slot, in the work list when it is due now, or among those
taken out of a slot of `unit` ticks. -/
def Fits (tick : BitVec 32) (done : Level → Bool) (unit : Nat) : Place → BitVec 32 → Prop
  | .slot l i, expires => Placed tick (done l) l i expires
  | .work, expires => expires = tick
  | .tmp, expires => dist tick expires < unit

structure Inv (c : CTimerLayering) (tmp : List Handle) (but : Option Handle) (done : Level → Bool) (unit : Nat) :
    Prop where
  nodup : ∀ p, (c.list tmp p).Nodup
  once : ∀ p q h, h ∈ c.list tmp p → h ∈ c.list tmp q → p = q
  fits : ∀ p h, h ∈ c.list tmp p →
    ∃ info, c.pool h = some info ∧ info.linked = true ∧ Fits c.last_tick done unit p info.expires
  found : ∀ h info, c.pool h = some info → info.linked = true → (∃ p, h ∈ c.list tmp p) ∨ but = some h

/-- `h` is in no list. -/
def Away (c : CTimerLayering) (tmp : List Handle) (h : Handle) : Prop := ∀ p, h ∉ c.list tmp p

section Operations

variable {c : CTimerLayering} {tmp : List Handle} {but : Option Handle} {done : Level → Bool} {unit : Nat} {h : Handle}
  {info : STimerInfo}

@[simp] theorem pool_addTimerInfo :
    (c.addTimerInfo h info).pool = Function.update c.pool h (some { info with linked := true }) := rfl

@[simp] theorem pool_detachTimer :
    (c.detachTimer h info).pool = Function.update c.pool h (some { info with linked := false }) := rfl

@[simp] theorem pool_store (info : Option STimerInfo) : (c.store h info).pool = Function.update c.pool h info := rfl

theorem mem_list_addTimerInfo {p : Place} {h' : Handle} : h' ∈ (c.addTimerInfo h info).list tmp p ↔
    h' ∈ c.list tmp p ∨ h' = h ∧ p = .slot (slotFor c.last_tick info.expires).1 (slotFor c.last_tick info.expires).2 := by
  cases p with
  | slot l i =>
    simp only [CTimerLayering.list, CTimerLayering.addTimerInfo, CTimerLayering.setVec, CTimerLayering.store,
      Place.slot.injEq]
    split_ifs with here
    · simp [here.1, here.2]
    · simp [here]
  | work => simp [CTimerLayering.list, CTimerLayering.addTimerInfo, CTimerLayering.setVec, CTimerLayering.store]
  | tmp => simp [CTimerLayering.list]

theorem nodup_addTimerInfo (nodup : ∀ p, (c.list tmp p).Nodup) (away : Away c tmp h) (p : Place) :
    ((c.addTimerInfo h info).list tmp p).Nodup := by
  cases p with
  | slot l i =>
    simp only [CTimerLayering.list, CTimerLayering.addTimerInfo, CTimerLayering.setVec, CTimerLayering.store]
    split_ifs with here
    · rw [← here.1, ← here.2]
      exact (nodup (.slot l i)).append (List.nodup_singleton h) (by simpa using away (.slot l i))
    · exact nodup (.slot l i)
  | work => exact nodup .work
  | tmp => exact nodup .tmp

/-- `__AddTimer` on a timer in no list. -/
theorem Inv.addTimerInfo (inv : Inv c tmp (some h) done unit) (away : Away c tmp h)
    (near : dist c.last_tick info.expires < 2 ^ 31) (ahead : 0 < dist c.last_tick info.expires ∨ done .tv1 = false) :
    Inv (c.addTimerInfo h info) tmp none done unit where
  nodup := nodup_addTimerInfo inv.nodup away
  once p q h' memp memq := by
    rw [mem_list_addTimerInfo] at memp memq
    rcases memp with memp | ⟨rfl, rfl⟩ <;> rcases memq with memq | ⟨same, rfl⟩
    · exact inv.once p q h' memp memq
    · exact absurd (same ▸ memp) (away p)
    · exact absurd memq (away q)
    · rfl
  fits p h' mem := by
    rw [mem_list_addTimerInfo] at mem
    rcases mem with mem | ⟨rfl, rfl⟩
    · have other : h' ≠ h := fun same => away p (same ▸ mem)
      obtain ⟨info', pool, linked, fits⟩ := inv.fits p h' mem
      exact ⟨info', by simpa [other] using pool, linked, fits⟩
    · exact ⟨{ info with linked := true }, by simp, rfl, placed_slotFor near ahead⟩
  found h' info' pool linked := by
    by_cases same : h' = h
    · exact .inl ⟨_, mem_list_addTimerInfo.2 (.inr ⟨same, rfl⟩)⟩
    · have pool : c.pool h' = some info' := by simpa [same] using pool
      rcases inv.found h' info' pool linked with ⟨p, mem⟩ | but
      · exact .inl ⟨p, mem_list_addTimerInfo.2 (.inl mem)⟩
      · exact absurd (Option.some.inj but).symm same

theorem list_detachTimer (away : h ∉ tmp) (p : Place) :
    (c.detachTimer h info).list tmp p = (c.list tmp p).filter (· ≠ h) := by
  cases p with
  | slot l i => rfl
  | work => rfl
  | tmp =>
    refine (List.filter_eq_self.2 ?_).symm
    intro a mem
    simpa using fun same : a = h => away (same ▸ mem)

theorem Inv.detachTimer (inv : Inv c tmp but done unit) (away : h ∉ tmp) :
    Inv (c.detachTimer h info) tmp but done unit where
  nodup p := by
    rw [list_detachTimer away]
    exact (inv.nodup p).filter _
  once p q h' memp memq := by
    rw [list_detachTimer away] at memp memq
    exact inv.once p q h' (List.mem_of_mem_filter memp) (List.mem_of_mem_filter memq)
  fits p h' mem := by
    rw [list_detachTimer away, List.mem_filter] at mem
    obtain ⟨info', pool, linked, fits⟩ := inv.fits p h' mem.1
    have other : h' ≠ h := by simpa using mem.2
    exact ⟨info', by simpa [other] using pool, linked, fits⟩
  found h' info' pool linked := by
    by_cases same : h' = h
    · subst same
      simp only [pool_detachTimer, Function.update_self, Option.some.injEq] at pool
      rw [← pool] at linked
      cases linked
    · have pool : c.pool h' = some info' := by simpa [same] using pool
      rcases inv.found h' info' pool linked with ⟨p, mem⟩ | but
      · refine .inl ⟨p, ?_⟩
        rw [list_detachTimer away, List.mem_filter]
        exact ⟨mem, by simpa using same⟩
      · exact .inr but

/-- Writing to a timer in no list, short of linking it. -/
theorem Inv.store (inv : Inv c tmp but done unit) (away : Away c tmp h) {info : Option STimerInfo}
    (unlinked : ∀ i, info = some i → i.linked = false) : Inv (c.store h info) tmp but done unit where
  nodup := inv.nodup
  once := inv.once
  fits p h' mem := by
    obtain ⟨info', pool, linked, fits⟩ := inv.fits p h' mem
    have other : h' ≠ h := fun same => away p (same ▸ mem)
    exact ⟨info', by simpa [other] using pool, linked, fits⟩
  found h' info' pool linked := by
    by_cases same : h' = h
    · subst same
      simp only [pool_store, Function.update_self] at pool
      rw [unlinked info' pool] at linked
      cases linked
    · exact inv.found h' info' (by simpa [same] using pool) linked

/-- A timer that is not linked is in no list. -/
theorem Inv.away (inv : Inv c tmp but done unit) (unlinked : ∀ info, c.pool h = some info → info.linked = false) :
    Away c tmp h := by
  intro p mem
  obtain ⟨info, pool, linked, -⟩ := inv.fits p h mem
  rw [unlinked info pool] at linked
  cases linked

theorem Inv.mayLink (inv : Inv c tmp none done unit) : Inv c tmp but done unit :=
  ⟨inv.nodup, inv.once, inv.fits, fun h info pool linked => .inl ((inv.found h info pool linked).resolve_right (by simp))⟩

/-- The first timer taken out of a slot is added again. -/
theorem Inv.popTmp (inv : Inv c (h :: tmp) none done unit) : Inv c tmp (some h) done unit ∧ Away c tmp h := by
  have sub : ∀ p h', h' ∈ c.list tmp p → h' ∈ c.list (h :: tmp) p := by
    intro p h' mem
    cases p with
    | slot l i => exact mem
    | work => exact mem
    | tmp => exact List.mem_cons_of_mem h mem
  refine ⟨⟨?_, ?_, ?_, ?_⟩, ?_⟩
  · intro p
    have nodup := inv.nodup p
    cases p with
    | slot l i => exact nodup
    | work => exact nodup
    | tmp => exact (List.nodup_cons.1 nodup).2
  · intro p q h' memp memq
    exact inv.once p q h' (sub p h' memp) (sub q h' memq)
  · intro p h' mem
    exact inv.fits p h' (sub p h' mem)
  · intro h' info pool linked
    obtain ⟨p, mem⟩ := (inv.found h' info pool linked).resolve_right (by simp)
    cases p with
    | slot l i => exact .inl ⟨.slot l i, mem⟩
    | work => exact .inl ⟨.work, mem⟩
    | tmp =>
      rcases List.mem_cons.1 mem with rfl | mem
      · exact .inr rfl
      · exact .inl ⟨.tmp, mem⟩
  · intro p mem
    have head : h ∈ c.list (h :: tmp) .tmp := List.mem_cons_self
    obtain rfl := inv.once _ _ h head (sub p h mem)
    exact (List.nodup_cons.1 (inv.nodup .tmp)).1 mem

/-- Emptying the slot of this tick: its timers are due within the slot's ticks, the others
of the vector are not. -/
theorem Inv.empty (inv : Inv c [] none done unit) {l : Level} (todo : done l = false)
    (even : c.last_tick.toNat % l.unit = 0) :
    Inv (c.setVec l (l.index c.last_tick) []) (c.vec l (l.index c.last_tick)) none (Function.update done l true)
      l.unit := by
  have whence : ∀ p h, h ∈ (c.setVec l (l.index c.last_tick) []).list (c.vec l (l.index c.last_tick)) p →
      (p = .tmp ∧ h ∈ c.vec l (l.index c.last_tick)) ∨ p ≠ .tmp ∧ p ≠ .slot l (l.index c.last_tick) ∧ h ∈ c.list [] p := by
    intro p h mem
    cases p with
    | slot l' i' =>
      simp only [CTimerLayering.list, CTimerLayering.setVec] at mem
      split_ifs at mem with here
      · cases mem
      · exact .inr ⟨by simp, by simpa using here, mem⟩
    | work => exact .inr ⟨by simp, by simp, mem⟩
    | tmp => exact .inl ⟨rfl, mem⟩
  refine ⟨?_, ?_, ?_, ?_⟩
  · intro p
    cases p with
    | slot l' i' =>
      simp only [CTimerLayering.list, CTimerLayering.setVec]
      split_ifs
      · exact List.nodup_nil
      · exact inv.nodup (.slot l' i')
    | work => exact inv.nodup .work
    | tmp => exact inv.nodup (.slot l _)
  · intro p q h memp memq
    rcases whence p h memp with ⟨rfl, memp⟩ | ⟨-, offp, memp⟩ <;>
      rcases whence q h memq with ⟨rfl, memq⟩ | ⟨-, offq, memq⟩
    · rfl
    · exact absurd (inv.once (.slot l _) q h memp memq).symm offq
    · exact absurd (inv.once p (.slot l _) h memp memq) offp
    · exact inv.once p q h memp memq
  · intro p h mem
    rcases whence p h mem with ⟨rfl, mem⟩ | ⟨temp, off, mem⟩
    · obtain ⟨info, pool, linked, fits⟩ := inv.fits (.slot l _) h mem
      simp only [Fits, todo] at fits
      exact ⟨info, pool, linked, fits.comes even rfl⟩
    · obtain ⟨info, pool, linked, fits⟩ := inv.fits p h mem
      refine ⟨info, pool, linked, ?_⟩
      cases p with
      | slot l' i' =>
        simp only [Fits] at fits ⊢
        by_cases same : l' = l
        · subst same
          rw [todo] at fits
          rw [Function.update_self]
          exact fits.stays even fun here => off (by rw [here])
        · rwa [Function.update_of_ne same]
      | work => exact fits
      | tmp => exact absurd rfl temp
  · intro h info pool linked
    obtain ⟨p, mem⟩ := (inv.found h info pool linked).resolve_right (by simp)
    by_cases here : p = .slot l (l.index c.last_tick)
    · subst here
      exact .inl ⟨.tmp, mem⟩
    · refine .inl ⟨p, ?_⟩
      cases p with
      | slot l' i' =>
        simp only [CTimerLayering.list, CTimerLayering.setVec]
        rw [if_neg (by simpa using here)]
        exact mem
      | work => exact mem
      | tmp => cases mem

/-- Adding a linked timer again changes nothing but the lists. -/
theorem pool_relink (pool : c.pool h = some info) (linked : info.linked = true) : (c.addTimerInfo h info).pool = c.pool := by
  rw [pool_addTimerInfo, ← linked, ← pool, Function.update_eq_self]

/-- The parts of the state that cascades leave alone. -/
structure SameBut (c d : CTimerLayering) : Prop where
  last_tick : d.last_tick = c.last_tick
  pool : d.pool = c.pool
  work_list : d.work_list = c.work_list
  phase : d.phase = c.phase
  log : d.log = c.log

theorem SameBut.trans {c d e : CTimerLayering} (first : SameBut c d) (second : SameBut d e) : SameBut c e where
  last_tick := second.last_tick.trans first.last_tick
  pool := second.pool.trans first.pool
  work_list := second.work_list.trans first.work_list
  phase := second.phase.trans first.phase
  log := second.log.trans first.log

theorem Inv.cascadeLoop (small : unit ≤ 2 ^ 26) (root : done .tv1 = false) : ∀ (tmp : List Handle) {c : CTimerLayering},
    Inv c tmp none done unit → Inv (CTimerLayering.cascadeLoop tmp c) [] none done unit ∧
      SameBut c (CTimerLayering.cascadeLoop tmp c)
  | [], c, inv => ⟨inv, ⟨rfl, rfl, rfl, rfl, rfl⟩⟩
  | h :: tmp, c, inv => by
    obtain ⟨info, pool, linked, near⟩ := inv.fits .tmp h List.mem_cons_self
    simp only [Fits] at near
    obtain ⟨rest, away⟩ := inv.popTmp
    have added : Inv (c.addTimerInfo h info) tmp none done unit := rest.addTimerInfo away (by omega) (.inr root)
    obtain ⟨done', same⟩ := Inv.cascadeLoop small root tmp added
    simp only [CTimerLayering.cascadeLoop, pool]
    have first : SameBut c (c.addTimerInfo h info) := ⟨rfl, pool_relink pool linked, rfl, rfl, rfl⟩
    exact ⟨done', first.trans same⟩

/-- Vectors that are between two of their slots count as emptied. -/
theorem Inv.between (inv : Inv c [] none done unit) {done' : Level → Bool} {unit' : Nat}
    (same : ∀ l, done' l = done l ∨ done l = false ∧ c.last_tick.toNat % l.unit ≠ 0) : Inv c [] none done' unit' := by
  refine ⟨inv.nodup, inv.once, ?_, inv.found⟩
  intro p h mem
  obtain ⟨info, pool, linked, fits⟩ := inv.fits p h mem
  refine ⟨info, pool, linked, ?_⟩
  cases p with
  | slot l i =>
    simp only [Fits] at fits ⊢
    rcases same l with same | ⟨todo, odd⟩
    · rwa [same]
    · rw [todo] at fits
      exact (fits.between odd).weaken
  | work => exact fits
  | tmp => cases mem

theorem Inv.cascade (inv : Inv c [] none done unit) {l : Level} (todo : done l = false) (root : done .tv1 = false)
    (upper : l ≠ .tv1) (even : c.last_tick.toNat % l.unit = 0) :
    Inv (c.cascade l (l.index c.last_tick)) [] none (Function.update done l true) 0 ∧
      SameBut c (c.cascade l (l.index c.last_tick)) := by
  have small : l.unit ≤ 2 ^ 26 := by
    cases l <;> simp [Level.unit_eq]
  have root' : Function.update done l true .tv1 = false := by rw [Function.update_of_ne upper.symm, root]
  obtain ⟨inv', same⟩ := Inv.cascadeLoop small root' _ (inv.empty todo even)
  exact ⟨inv'.between fun l => .inl rfl, ⟨same.last_tick, same.pool, same.work_list, same.phase, same.log⟩⟩

/-- A cascade keeps what is not in the vectors or the pool. -/
structure Outside (c d : CTimerLayering) : Prop where
  last_tick : d.last_tick = c.last_tick
  work_list : d.work_list = c.work_list
  phase : d.phase = c.phase
  log : d.log = c.log

theorem Outside.refl (c : CTimerLayering) : Outside c c := ⟨rfl, rfl, rfl, rfl⟩

theorem Outside.trans {c d e : CTimerLayering} (first : Outside c d) (second : Outside d e) : Outside c e :=
  ⟨second.last_tick.trans first.last_tick, second.work_list.trans first.work_list, second.phase.trans first.phase,
    second.log.trans first.log⟩

theorem outside_cascadeLoop (tmp : List Handle) (c : CTimerLayering) : Outside c (CTimerLayering.cascadeLoop tmp c) := by
  induction tmp generalizing c with
  | nil => exact .refl c
  | cons h tmp ih =>
    unfold CTimerLayering.cascadeLoop
    cases c.pool h with
    | none => exact ih c
    | some info =>
      have added : Outside c (c.addTimerInfo h info) := ⟨rfl, rfl, rfl, rfl⟩
      exact added.trans (ih _)

theorem outside_cascade (c : CTimerLayering) (l : Level) (i : Nat) : Outside c (c.cascade l i) := by
  have emptied : Outside c (c.setVec l i []) := ⟨rfl, rfl, rfl, rfl⟩
  exact emptied.trans (outside_cascadeLoop _ _)

section Chain

variable (J : CTimerLayering → (Level → Bool) → Prop)

/-- `c'` is `c` with the vectors in `done` through with this tick. -/
structure Through (c c' : CTimerLayering) (done : Level → Bool) : Prop where
  holds : J c' done
  root : done .tv1 = false
  outside : Outside c c'

/-- What `J` has to meet: a cascade of a vector that is back at a first slot puts it through, and a vector between two of
its slots counts as through. -/
structure Cascading (c : CTimerLayering) : Prop where
  cascade : ∀ d done l, J d done → d.last_tick = c.last_tick → done l = false → done .tv1 = false → l ≠ .tv1 →
    d.last_tick.toNat % l.unit = 0 → J (d.cascade l (l.index d.last_tick)) (Function.update done l true)
  between : ∀ d done done', J d done → d.last_tick = c.last_tick →
    (∀ l, done' l = done l ∨ done l = false ∧ d.last_tick.toNat % l.unit ≠ 0) → J d done'

variable {J} {c' : CTimerLayering}

/-- One more cascade, when the vectors below are back at their first slots. -/
theorem Through.cascade (through : Through J c c' done) (chain : Cascading J c) {l : Level} (todo : done l = false)
    (upper : l ≠ .tv1) (even : c.last_tick.toNat % l.unit = 0) :
    Through J c (c'.cascade l (l.index c.last_tick)) (Function.update done l true) := by
  have tick := through.outside.last_tick
  rw [← tick] at even ⊢
  refine ⟨chain.cascade c' done l through.holds tick todo through.root upper even, ?_, ?_⟩
  · rw [Function.update_of_ne upper.symm, through.root]
  · exact through.outside.trans (outside_cascade c' l _)

/-- The chain may stop where the vectors that are left are between two of their slots. -/
theorem Through.stop (through : Through J c c' done) (chain : Cascading J c)
    (odd : ∀ l, l ≠ .tv1 → done l = true ∨ done l = false ∧ c.last_tick.toNat % l.unit ≠ 0) :
    J c' (fun l => decide (l ≠ .tv1)) := by
  have tick := through.outside.last_tick
  apply chain.between c' done _ through.holds tick
  intro l
  rw [tick]
  by_cases first : l = .tv1
  · left
    rw [first, through.root]
    rfl
  · simp only [ne_eq, first, not_false_eq_true, decide_true]
    exact (odd l first).imp_left Eq.symm

/-- **The rule for the chain of cascades**: after it every vector but the first is through with this tick. -/
theorem cascades_rule (start : J c fun _ => false) (chain : Cascading J c) : J c.cascades fun l => decide (l ≠ .tv1) := by
  have zero1 := Level.tv1.index_eq c.last_tick
  have zero2 := Level.tv2.index_eq c.last_tick
  have zero3 := Level.tv3.index_eq c.last_tick
  have zero4 := Level.tv4.index_eq c.last_tick
  simp only [Level.unit_eq, Level.size] at zero1 zero2 zero3 zero4
  have through1 : Through J c c fun _ => false := ⟨start, rfl, .refl c⟩
  unfold CTimerLayering.cascades
  dsimp only
  by_cases stop1 : Level.tv1.index c.last_tick ≠ 0
  · rw [if_pos stop1]
    apply through1.stop chain
    intro l
    cases l <;> simp [Level.unit_eq] <;> omega
  rw [if_neg stop1]
  have through2 := through1.cascade chain (l := .tv2) rfl (by decide) (by simp only [Level.unit_eq]; omega)
  rw [through2.outside.last_tick]
  by_cases stop2 : Level.tv2.index c.last_tick ≠ 0
  · rw [if_pos stop2]
    apply through2.stop chain
    intro l
    cases l <;> simp [Level.unit_eq, Function.update] <;> omega
  rw [if_neg stop2]
  have through3 := through2.cascade chain (l := .tv3) rfl (by decide) (by simp only [Level.unit_eq]; omega)
  rw [through3.outside.last_tick]
  by_cases stop3 : Level.tv3.index c.last_tick ≠ 0
  · rw [if_pos stop3]
    apply through3.stop chain
    intro l
    cases l <;> simp [Level.unit_eq, Function.update] <;> omega
  rw [if_neg stop3]
  have through4 := through3.cascade chain (l := .tv4) rfl (by decide) (by simp only [Level.unit_eq]; omega)
  rw [through4.outside.last_tick]
  by_cases stop4 : Level.tv4.index c.last_tick ≠ 0
  · rw [if_pos stop4]
    apply through4.stop chain
    intro l
    cases l <;> simp [Level.unit_eq, Function.update]
    omega
  rw [if_neg stop4]
  have through5 := through4.cascade chain (l := .tv5) rfl (by decide) (by simp only [Level.unit_eq]; omega)
  apply through5.stop chain
  intro l
  cases l <;> simp [Function.update]

end Chain

/-- After the chain of cascades every vector but the first is through with this tick. -/
theorem Inv.cascades (inv : Inv c [] none (fun _ => false) 0) :
    Inv c.cascades [] none (fun l => decide (l ≠ .tv1)) 0 ∧ SameBut c c.cascades := by
  apply cascades_rule (J := fun d done => Inv d [] none done 0 ∧ SameBut c d)
  · exact ⟨inv, ⟨rfl, rfl, rfl, rfl, rfl⟩⟩
  · constructor
    · rintro d done l ⟨inv, same⟩ - todo root upper even
      obtain ⟨inv', same'⟩ := inv.cascade todo root upper even
      exact ⟨inv', same.trans same'⟩
    · rintro d done done' ⟨inv, same⟩ - through
      exact ⟨inv.between through, same⟩

end Operations

end GameServer.Timers.Layering

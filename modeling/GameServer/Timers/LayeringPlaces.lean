import GameServer.Timers.LayeringExact

/-!
# Where a timer is

The structure that every run keeps, whatever the clock reads: a timer that is linked `Sits` in one list, once, and a timer
that is not, or is not there any more, is in none (`Tidy`). It holds one timer at a time: `Apart` says that an operation
on other timers leaves a timer alone.
-/

namespace GameServer.Timers.Layering

/-- `h` is in the list of `p`, once, and in no other one. -/
structure Sits (c : CTimerLayering) (tmp : List Handle) (h : Handle) (p : Place) : Prop where
  once : (c.list tmp p).count h = 1
  only : ∀ q, h ∈ c.list tmp q → q = p

/-- `d` is `c` as far as `h` is concerned. -/
structure Apart (h : Handle) (c d : CTimerLayering) : Prop where
  pool : d.pool h = c.pool h
  vec : ∀ l i, (d.vec l i).count h = (c.vec l i).count h
  work_list : d.work_list.count h = c.work_list.count h

/-- A timer that is linked is in one place, any other one in none. -/
inductive Homed (c : CTimerLayering) (tmp : List Handle) (h : Handle) : Prop where
  | linked (info : STimerInfo) (p : Place) (pool : c.pool h = some info) (linked : info.linked = true) (sits : Sits c tmp h p)
  | off (off : Off c h) (away : Away c tmp h)

section Places

variable {c d e : CTimerLayering} {tmp tmp' : List Handle} {h h' : Handle} {p : Place} {info : STimerInfo}

theorem Apart.refl (h : Handle) (c : CTimerLayering) : Apart h c c := ⟨rfl, fun _ _ => rfl, rfl⟩

theorem Apart.trans (first : Apart h c d) (second : Apart h d e) : Apart h c e :=
  ⟨second.pool.trans first.pool, fun l i => (second.vec l i).trans (first.vec l i), second.work_list.trans first.work_list⟩

theorem Apart.count (apart : Apart h c d) (p : Place) : (d.list tmp p).count h = (c.list tmp p).count h := by
  cases p with
  | slot l i => exact apart.vec l i
  | work => exact apart.work_list
  | tmp => rfl

theorem Apart.mem (apart : Apart h c d) (p : Place) : h ∈ d.list tmp p ↔ h ∈ c.list tmp p := by
  rw [← List.count_pos_iff, ← List.count_pos_iff, apart.count]

theorem Sits.apart (sits : Sits c tmp h p) (apart : Apart h c d) : Sits d tmp h p :=
  ⟨(apart.count p).trans sits.once, fun q mem => sits.only q ((apart.mem q).1 mem)⟩

theorem Away.apart (away : Away c tmp h) (apart : Apart h c d) : Away d tmp h :=
  fun p mem => away p ((apart.mem p).1 mem)

theorem Homed.apart (homed : Homed c tmp h) (apart : Apart h c d) : Homed d tmp h := by
  cases homed with
  | linked info p pool linked sits => exact .linked info p (apart.pool.trans pool) linked (sits.apart apart)
  | off off away => exact .off (fun i pool => off i (apart.pool.symm.trans pool)) (away.apart apart)

theorem apart_addTimerInfo (other : h' ≠ h) (info : STimerInfo) : Apart h c (c.addTimerInfo h' info) where
  pool := Function.update_of_ne (Ne.symm other) _ _
  vec l i := by
    simp only [CTimerLayering.addTimerInfo, CTimerLayering.setVec, CTimerLayering.store]
    split
    · next here => simp [here, List.count_append, other]
    · rfl
  work_list := rfl

theorem apart_detachTimer (other : h' ≠ h) (info : STimerInfo) : Apart h c (c.detachTimer h' info) where
  pool := Function.update_of_ne (Ne.symm other) _ _
  vec l i := List.count_filter (by simpa using Ne.symm other)
  work_list := List.count_filter (by simpa using Ne.symm other)

theorem apart_store (other : h' ≠ h) (info : Option STimerInfo) : Apart h c (c.store h' info) :=
  ⟨Function.update_of_ne (Ne.symm other) _ _, fun _ _ => rfl, rfl⟩

/-- The list that `__AddTimer` links a timer in. -/
def slotPlace (last_tick expires : BitVec 32) : Place := .slot (slotFor last_tick expires).1 (slotFor last_tick expires).2

theorem Away.addTimerInfo (away : Away c tmp h) (info : STimerInfo) :
    Sits (c.addTimerInfo h info) tmp h (slotPlace c.last_tick info.expires) where
  once := by
    have none := List.count_eq_zero_of_not_mem (away (slotPlace c.last_tick info.expires))
    simp only [CTimerLayering.list, slotPlace] at none
    simp [CTimerLayering.list, slotPlace, CTimerLayering.addTimerInfo, CTimerLayering.setVec, CTimerLayering.store,
      List.count_append, none]
  only q mem := by
    rcases mem_list_addTimerInfo.1 mem with mem | ⟨-, here⟩
    · exact absurd mem (away q)
    · exact here

theorem away_detachTimer (info : STimerInfo) : Away (c.detachTimer h info) [] h := by
  intro p mem
  rw [list_detachTimer (List.not_mem_nil)] at mem
  simpa using (List.mem_filter.1 mem).2

theorem Homed.away (homed : Homed c tmp h) (off : Off c h) : Away c tmp h := by
  cases homed with
  | linked info p pool linked sits =>
    rw [off info pool] at linked
    cases linked
  | off _ away => exact away

/-- A timer in a list is linked. -/
theorem Homed.of_mem (homed : Homed c tmp h) (mem : h ∈ c.list tmp p) :
    ∃ info, c.pool h = some info ∧ info.linked = true := by
  cases homed with
  | linked info p pool linked sits => exact ⟨info, pool, linked⟩
  | off _ away => exact absurd mem (away p)

end Places

section Cascades

variable {c : CTimerLayering} {tmp : List Handle} {h : Handle} {p : Place} {info : STimerInfo}

/-- The step of `__Cascade` for a timer other than `h`. -/
theorem apart_cascadeLoop_head {h' : Handle} (other : h' ≠ h) :
    Apart h c (match c.pool h' with
      | none => c
      | some info => c.addTimerInfo h' info) := by
  cases c.pool h' with
  | none => exact .refl h c
  | some info => exact apart_addTimerInfo other info

/-- A timer that is in no list is left alone. -/
theorem Away.cascadeLoop (away : Away c tmp h) : Apart h c (CTimerLayering.cascadeLoop tmp c) := by
  induction tmp generalizing c with
  | nil => exact .refl h c
  | cons h' tmp ih =>
    have other : h' ≠ h := by
      rintro rfl
      exact away .tmp List.mem_cons_self
    have apart := apart_cascadeLoop_head (c := c) other
    refine apart.trans (ih fun p mem => ?_)
    have before := (apart.mem p).1 mem
    cases p with
    | slot l i => exact away (.slot l i) before
    | work => exact away .work before
    | tmp => exact away .tmp (List.mem_cons_of_mem h' mem)

/-- A timer that has been taken out goes to the slot for its expiry, any other one stays. -/
theorem Sits.cascadeLoop (sits : Sits c tmp h p) (pool : c.pool h = some info) (linked : info.linked = true) :
    Sits (CTimerLayering.cascadeLoop tmp c) [] h (if p = .tmp then slotPlace c.last_tick info.expires else p) ∧
      (CTimerLayering.cascadeLoop tmp c).pool h = some info := by
  induction tmp generalizing c p with
  | nil =>
    have here : p ≠ .tmp := by
      rintro rfl
      exact absurd sits.once (by simp [CTimerLayering.list])
    rw [if_neg here]
    exact ⟨sits, pool⟩
  | cons h' tmp ih =>
    unfold CTimerLayering.cascadeLoop
    by_cases same : h' = h
    · subst same
      obtain rfl := (sits.only .tmp List.mem_cons_self).symm
      have away : Away c tmp h' := by
        intro q mem
        cases q with
        | slot l i => cases sits.only (.slot l i) mem
        | work => cases sits.only .work mem
        | tmp =>
          have once := sits.once
          simp only [CTimerLayering.list, List.count_cons_self] at once
          exact absurd (List.count_pos_iff.2 mem) (by rw [CTimerLayering.list]; omega)
      have moved := ih (away.addTimerInfo info) ((congrFun (pool_relink pool linked) h').trans pool)
      rw [if_neg (by simp [slotPlace])] at moved
      rw [pool, if_pos rfl]
      exact moved
    · have apart := apart_cascadeLoop_head (c := c) same
      have rest : Sits c tmp h p := by
        constructor
        · have once := sits.once
          cases p with
          | slot l i => exact once
          | work => exact once
          | tmp => simpa [CTimerLayering.list, List.count_cons, same] using once
        · intro q mem
          cases q with
          | slot l i => exact sits.only (.slot l i) mem
          | work => exact sits.only .work mem
          | tmp => exact sits.only .tmp (List.mem_cons_of_mem h' mem)
      have moved := ih (rest.apart apart) (apart.pool.trans pool)
      have tick : (match c.pool h' with
          | none => c
          | some info => c.addTimerInfo h' info).last_tick = c.last_tick := by
        cases c.pool h' <;> rfl
      rw [tick] at moved
      exact moved

/-- The list of one place goes to another one, which is empty. -/
theorem Sits.moved {d : CTimerLayering} {source target : Place} (sits : Sits c [] h p) (empty : c.list [] target = [])
    (taken : d.list tmp target = c.list [] source) (left : d.list tmp source = [])
    (others : ∀ q, q ≠ source → q ≠ target → d.list tmp q = c.list [] q) :
    Sits d tmp h (if p = source then target else p) := by
  have real : p ≠ target := by
    rintro rfl
    exact absurd sits.once (by simp [empty])
  constructor
  · split_ifs with here
    · rw [taken, ← here]
      exact sits.once
    · rw [others p here real]
      exact sits.once
  · intro q mem
    by_cases end' : q = target
    · subst end'
      rw [taken] at mem
      rw [if_pos (sits.only source mem).symm]
    · by_cases start : q = source
      · rw [start, left] at mem
        cases mem
      · rw [others q start end'] at mem
        obtain rfl := sits.only q mem
        rw [if_neg start]

/-- A slot that is emptied has no timers, and the other slots keep theirs. -/
theorem vec_setVec_nil (l : Level) (i : Nat) {l' : Level} {i' : Nat} :
    (c.setVec l i []).vec l' i' = if Place.slot l' i' = .slot l i then [] else c.vec l' i' := by
  simp only [CTimerLayering.setVec, Place.slot.injEq]

theorem Sits.cascade (sits : Sits c [] h p) (pool : c.pool h = some info) (linked : info.linked = true) (l : Level) (i : Nat) :
    Sits (c.cascade l i) [] h (if p = .slot l i then slotPlace c.last_tick info.expires else p) ∧
      (c.cascade l i).pool h = some info := by
  have taken : Sits (c.setVec l i []) (c.vec l i) h (if p = .slot l i then .tmp else p) := by
    refine sits.moved rfl rfl ((vec_setVec_nil l i).trans (if_pos rfl)) fun q start end' => ?_
    cases q with
    | slot l' i' => exact (vec_setVec_nil l i).trans (if_neg start)
    | work => rfl
    | tmp => exact absurd rfl end'
  have moved := taken.cascadeLoop pool linked
  have place : (if (if p = .slot l i then Place.tmp else p) = .tmp then slotPlace c.last_tick info.expires
      else if p = .slot l i then .tmp else p) = if p = .slot l i then slotPlace c.last_tick info.expires else p := by
    have real : p ≠ .tmp := by
      rintro rfl
      exact absurd sits.once (by simp [CTimerLayering.list])
    by_cases here : p = .slot l i
    · simp [here]
    · simp [here, real]
  rw [← place]
  exact moved

theorem Away.cascade (away : Away c [] h) (l : Level) (i : Nat) : Apart h c (c.cascade l i) := by
  have emptied : Apart h c (c.setVec l i []) := by
    refine ⟨rfl, fun l' i' => ?_, rfl⟩
    simp only [CTimerLayering.setVec]
    split
    · next here =>
      have none : h ∉ c.vec l i := away (.slot l i)
      rw [here.1, here.2, List.count_eq_zero_of_not_mem none, List.count_nil]
    · rfl
  refine emptied.trans (Away.cascadeLoop fun p mem => ?_)
  cases p with
  | slot l' i' => exact away (.slot l' i') ((emptied.mem (.slot l' i')).1 mem)
  | work => exact away .work mem
  | tmp => exact away (.slot l i) mem

theorem Homed.cascade (homed : Homed c [] h) (l : Level) (i : Nat) : Homed (c.cascade l i) [] h ∧ (c.cascade l i).pool h = c.pool h := by
  cases homed with
  | linked info p pool linked sits =>
    obtain ⟨sits', pool'⟩ := sits.cascade pool linked l i
    exact ⟨.linked info _ pool' linked sits', pool'.trans pool.symm⟩
  | off off away =>
    have apart := away.cascade l i
    exact ⟨Homed.apart (.off off away) apart, apart.pool⟩

/-- After the cascades a timer is still in one place or none. -/
theorem Homed.cascades (homed : Homed c [] h) : Homed c.cascades [] h ∧ c.cascades.pool h = c.pool h := by
  apply cascades_rule (J := fun d _ => Homed d [] h ∧ d.pool h = c.pool h)
  · exact ⟨homed, rfl⟩
  · constructor
    · rintro d done l ⟨homed, pool⟩ - - - - -
      obtain ⟨homed', pool'⟩ := homed.cascade l (l.index d.last_tick)
      exact ⟨homed', pool'.trans pool⟩
    · rintro d done done' both - -
      exact both

theorem outside_cascades (c : CTimerLayering) : Outside c c.cascades := by
  apply cascades_rule (J := fun d _ => Outside c d)
  · exact .refl c
  · constructor
    · intro d done l outside _ _ _ _ _
      exact outside.trans (outside_cascade d l _)
    · intro d done done' outside _ _
      exact outside

/-- The timers of a slot become the work list. -/
def CTimerLayering.toWork (c : CTimerLayering) (l : Level) (i : Nat) : CTimerLayering :=
  { c.setVec l i [] with work_list := c.vec l i }

theorem Sits.toWork (sits : Sits c [] h p) (rest : c.work_list = []) (l : Level) (i : Nat) :
    Sits (c.toWork l i) [] h (if p = .slot l i then .work else p) := by
  refine sits.moved rest rfl ((vec_setVec_nil l i).trans (if_pos rfl)) fun q start end' => ?_
  cases q with
  | slot l' i' => exact (vec_setVec_nil l i).trans (if_neg start)
  | work => exact absurd rfl end'
  | tmp => rfl

theorem Away.toWork (away : Away c [] h) (l : Level) (i : Nat) : Away (c.toWork l i) [] h := by
  intro p mem
  cases p with
  | slot l' i' =>
    simp only [CTimerLayering.list, CTimerLayering.toWork, CTimerLayering.setVec] at mem
    split at mem
    · cases mem
    · exact away (.slot l' i') mem
  | work => exact away (.slot l i) mem
  | tmp => cases mem

theorem Homed.toWork (homed : Homed c [] h) (rest : c.work_list = []) (l : Level) (i : Nat) : Homed (c.toWork l i) [] h := by
  cases homed with
  | linked info p pool linked sits => exact .linked info _ pool linked (sits.toWork rest l i)
  | off off away => exact .off off (away.toWork l i)

end Cascades

/-- The structure of the lists, whatever the clock reads. -/
structure Tidy (c : CTimerLayering) : Prop where
  homed : ∀ h, Homed c [] h
  rest : c.phase.emptied = false → c.work_list = []
  called : ∀ tick h, c.phase = .calling tick h → ∃ info, c.pool h = some info ∧ info.linked = false
  /-- Only the timer in its callback is not linked. -/
  calling : ∀ h info, c.pool h = some info → info.linked = false → ∃ tick, c.phase = .calling tick h

section Runs

variable {c d : CTimerLayering} {h : Handle} {info : STimerInfo}

/-- What is read is the same. -/
theorem Homed.congr (homed : Homed c [] h) (pool : d.pool = c.pool) (vec : d.vec = c.vec) (work_list : d.work_list = c.work_list) :
    Homed d [] h :=
  homed.apart ⟨by rw [pool], fun l i => by rw [vec], by rw [work_list]⟩

/-- Linking a timer that is in no list. -/
theorem homed_addTimerInfo (homed : ∀ h, Homed c [] h) (off : Off c h) (info : STimerInfo) (h' : Handle) :
    Homed (c.addTimerInfo h info) [] h' := by
  by_cases same : h = h'
  · subst same
    refine .linked { info with linked := true } _ ?_ rfl (((homed h).away off).addTimerInfo info)
    rw [pool_addTimerInfo, Function.update_self]
  · exact (homed h').apart (apart_addTimerInfo same info)

theorem homed_detachTimer (homed : ∀ h, Homed c [] h) (info : STimerInfo) (h' : Handle) :
    Homed (c.detachTimer h info) [] h' := by
  by_cases same : h = h'
  · subst same
    exact .off (off_detachTimer (.taken h)) (away_detachTimer info)
  · exact (homed h').apart (apart_detachTimer same info)

theorem homed_store (homed : ∀ h, Homed c [] h) (off : Off c h) {info : Option STimerInfo}
    (unlinked : ∀ i, info = some i → i.linked = false) (h' : Handle) : Homed (c.store h info) [] h' := by
  by_cases same : h = h'
  · subst same
    refine .off ?_ ((homed h).away off)
    intro i pool
    rw [pool_store, Function.update_self] at pool
    exact unlinked i pool
  · exact (homed h').apart (apart_store same info)

/-- Taking a timer out of its list, and changing it or giving it back. -/
theorem homed_detached_store (homed : ∀ h, Homed c [] h) (e : Event Handle) {info' : Option STimerInfo}
    (unlinked : ∀ i, info' = some i → i.linked = false) (h' : Handle) :
    Homed (((c.detachTimer h info).record e).store h info') [] h' := by
  have detached : ∀ h', Homed ((c.detachTimer h info).record e) [] h' := fun h' =>
    (homed_detachTimer homed info h').congr rfl rfl rfl
  exact homed_store detached (off_detachTimer e) unlinked h'

theorem tidy_init (tick : BitVec 32) : Tidy (.init tick) where
  homed h := .off (by intro i pool; cases pool) (by intro p mem; cases p <;> cases mem)
  rest _ := rfl
  called tick h phase := by cases phase
  calling h info pool := by cases pool

/-- Linking a timer that has no callback running. -/
theorem Tidy.link (tidy : Tidy c) (off : Off c h) (free : ∀ tick, c.phase ≠ .calling tick h) (e : Event Handle)
    (info : STimerInfo) : Tidy ((c.addTimerInfo h info).record e) where
  homed h' := (homed_addTimerInfo tidy.homed off info h').congr rfl rfl rfl
  rest := tidy.rest
  called tick h' phase := by
    obtain ⟨info', pool, unlinked⟩ := tidy.called tick h' phase
    have other : h' ≠ h := by
      rintro rfl
      exact free tick phase
    exact ⟨info', (Function.update_of_ne other _ _).trans pool, unlinked⟩
  calling h' info' pool unlinked := by
    by_cases same : h' = h
    · subst same
      have pool : (c.addTimerInfo h' info).pool h' = some info' := pool
      rw [pool_addTimerInfo, Function.update_self] at pool
      rw [← Option.some.inj pool] at unlinked
      cases unlinked
    · exact tidy.calling h' info' ((Function.update_of_ne same _ _).symm.trans pool) unlinked

/-- Only the timer in its callback is not linked. -/
theorem Tidy.eq_of_calling {tick : BitVec 32} {h' : Handle} (tidy : Tidy c) (phase : c.phase = .calling tick h)
    (pool : c.pool h' = some info) (unlinked : info.linked = false) : h' = h := by
  obtain ⟨tick', calling⟩ := tidy.calling h' info pool unlinked
  rw [phase] at calling
  exact (Phase.calling.inj calling).2.symm

theorem Tidy.free_of_none (tidy : Tidy c) (pool : c.pool h = none) (tick : BitVec 32) : c.phase ≠ .calling tick h := by
  intro phase
  obtain ⟨info', pool', -⟩ := tidy.called tick h phase
  rw [pool] at pool'
  cases pool'

/-- Changing the timer in its callback. -/
theorem Tidy.write (tidy : Tidy c) (pool : c.pool h = some info) (unlinked : info.linked = false) {info' : STimerInfo}
    (unlinked' : info'.linked = false) : Tidy (c.store h (some info')) where
  homed := homed_store tidy.homed (.of_pool pool unlinked) (by rintro i ⟨⟩; exact unlinked')
  rest := tidy.rest
  called tick h' phase := by
    by_cases same : h' = h
    · subst same
      exact ⟨info', Function.update_self _ _ _, unlinked'⟩
    · obtain ⟨i, pool', off⟩ := tidy.called tick h' phase
      exact ⟨i, (Function.update_of_ne same _ _).trans pool', off⟩
  calling h' i pool' off := by
    by_cases same : h' = h
    · subst same
      exact tidy.calling h' info pool unlinked
    · exact tidy.calling h' i ((Function.update_of_ne same _ _).symm.trans pool') off

/-- Taking a linked timer out of its list and giving it back to the pool. -/
theorem Tidy.destroy (tidy : Tidy c) (pool : c.pool h = some info) (linked : info.linked = true) (e : Event Handle) :
    Tidy (((c.detachTimer h info).record e).store h none) where
  homed := homed_detached_store tidy.homed e (by simp)
  rest idle := by
    have empty := tidy.rest idle
    simp [CTimerLayering.record, CTimerLayering.store, CTimerLayering.detachTimer, empty]
  called tick h' phase := by
    obtain ⟨i, pool', off, other⟩ := called_ne tidy.called pool linked phase
    refine ⟨i, ?_, off⟩
    simpa [CTimerLayering.record, other] using pool'
  calling h' i pool' off := by
    have other : h' ≠ h := by
      rintro rfl
      simp at pool'
    exact tidy.calling h' i (by simpa [CTimerLayering.record, other] using pool') off

/-- Taking a linked timer out of its list and linking it again. -/
theorem Tidy.relink (tidy : Tidy c) (pool : c.pool h = some info) (linked : info.linked = true) (e e' : Event Handle)
    (info' : STimerInfo) : Tidy ((((c.detachTimer h info).record e).addTimerInfo h info').record e') where
  homed h' := by
    have detached : ∀ h', Homed ((c.detachTimer h info).record e) [] h' := fun h' =>
      (homed_detachTimer tidy.homed info h').congr rfl rfl rfl
    exact (homed_addTimerInfo detached (off_detachTimer e) info' h').congr rfl rfl rfl
  rest idle := by
    have empty := tidy.rest idle
    simp [CTimerLayering.record, CTimerLayering.addTimerInfo, CTimerLayering.store, CTimerLayering.setVec,
      CTimerLayering.detachTimer, empty]
  called tick h' phase := by
    obtain ⟨i, pool', off, other⟩ := called_ne tidy.called pool linked phase
    exact ⟨i, by simpa [CTimerLayering.record, other] using pool', off⟩
  calling h' i pool' off := by
    have other : h' ≠ h := by
      rintro rfl
      have pool' : i = { info' with linked := true } := by simpa [CTimerLayering.record, eq_comm] using pool'
      rw [pool'] at off
      cases off
    exact tidy.calling h' i (by simpa [CTimerLayering.record, other] using pool') off

/-- Outside a callback all timers are linked. -/
theorem Tidy.linked (tidy : Tidy c) (outside : ∀ tick h, c.phase ≠ .calling tick h) (pool : c.pool h = some info) :
    info.linked = true := by
  by_contra unlinked
  obtain ⟨tick, calling⟩ := tidy.calling h info pool (by simpa using unlinked)
  exact outside tick h calling

/-- Taking a timer out of its list and calling it. -/
theorem Tidy.deliver (tidy : Tidy c) (outside : ∀ tick h, c.phase ≠ .calling tick h) (e : Event Handle) (tick count : BitVec 32) :
    Tidy { ((c.detachTimer h info).record e).store h (some { info with linked := false, count := count }) with
      phase := .calling tick h } where
  homed h' := (homed_detached_store tidy.homed e (by rintro i ⟨⟩; rfl) h').congr rfl rfl rfl
  rest busy := by cases busy
  called tick' h' phase := by
    obtain ⟨-, rfl⟩ := Phase.calling.inj phase
    exact ⟨_, Function.update_self _ _ _, rfl⟩
  calling h' i pool off := by
    by_cases same : h' = h
    · subst same
      exact ⟨tick, rfl⟩
    · have pool : c.pool h' = some i := by simpa [CTimerLayering.record, same] using pool
      rw [tidy.linked outside pool] at off
      cases off

/-- The timer in its callback is given back. -/
theorem Tidy.finish {tick tick' : BitVec 32} (tidy : Tidy c) (phase : c.phase = .calling tick h) :
    Tidy { c.store h none with phase := .working tick' } where
  homed h' := by
    obtain ⟨info, pool, unlinked⟩ := tidy.called tick h phase
    exact (homed_store tidy.homed (.of_pool pool unlinked) (by simp) h').congr rfl rfl rfl
  rest busy := by cases busy
  called _ _ busy := by cases busy
  calling h' i pool off := by
    by_cases same : h' = h
    · subst same
      simp at pool
    · exact absurd (tidy.eq_of_calling phase (by simpa [same] using pool) off) same

/-- The timer in its callback is linked again. -/
theorem Tidy.rearm {tick tick' : BitVec 32} (tidy : Tidy c) (phase : c.phase = .calling tick h) (e : Event Handle)
    (info' : STimerInfo) : Tidy { (c.addTimerInfo h info').record e with phase := .working tick' } where
  homed h' := by
    obtain ⟨info, pool, unlinked⟩ := tidy.called tick h phase
    exact (homed_addTimerInfo tidy.homed (.of_pool pool unlinked) info' h').congr rfl rfl rfl
  rest busy := by cases busy
  called _ _ busy := by cases busy
  calling h' i pool off := by
    by_cases same : h' = h
    · subst same
      have pool : (c.addTimerInfo h' info').pool h' = some i := pool
      rw [pool_addTimerInfo, Function.update_self] at pool
      rw [← Option.some.inj pool] at off
      cases off
    · have pool : c.pool h' = some i := (Function.update_of_ne same _ _).symm.trans pool
      exact absurd (tidy.eq_of_calling phase pool off) same

/-- The work list is done. -/
theorem Tidy.nextTick (tidy : Tidy c) (outside : ∀ tick h, c.phase ≠ .calling tick h) (empty : c.work_list = [])
    (e : Event Handle) (phase : Phase) (idle : ∀ tick h, phase ≠ .calling tick h) :
    Tidy ({ c with last_tick := c.last_tick + 1, phase := phase }.record e) where
  homed h := (tidy.homed h).congr rfl rfl rfl
  rest _ := empty
  called tick h calling := absurd calling (idle tick h)
  calling h info pool unlinked := by
    have pool : c.pool h = some info := pool
    rw [tidy.linked outside pool] at unlinked
    cases unlinked

theorem Tidy.addTimer {elapse count : BitVec 32} {data : Nat} {room : Option Handle} (tidy : Tidy c)
    (next : c.addTimer elapse count data room = some d) : Tidy d := by
  unfold CTimerLayering.addTimer at next
  split at next
  · cases next
    exact tidy
  · cases room with
    | none =>
      cases next
      exact tidy
    | some h =>
      dsimp only at next
      split at next
      · next free =>
        cases next
        exact tidy.link (by simp [Off, free]) (tidy.free_of_none free) _ _
      · cases next

theorem Tidy.adjustTimer {elapse count : BitVec 32} {data : Nat} (tidy : Tidy c) :
    Tidy (c.adjustTimer h elapse count data) := by
  unfold CTimerLayering.adjustTimer
  cases pool : c.pool h with
  | none => exact tidy
  | some info =>
    dsimp only
    generalize (if data ≠ 0 then data else info.data) = data'
    split
    · exact tidy
    · split
      · next linked => exact tidy.relink pool linked _ _ _
      · next unlinked =>
        have unlinked : info.linked = false := by simpa using unlinked
        exact tidy.write pool unlinked unlinked

theorem Tidy.removeTimer (tidy : Tidy c) : Tidy (c.removeTimer h) := by
  unfold CTimerLayering.removeTimer
  cases pool : c.pool h with
  | none => exact tidy
  | some info =>
    dsimp only
    split
    · next linked => exact tidy.destroy pool linked _
    · next unlinked =>
      have unlinked : info.linked = false := by simpa using unlinked
      exact tidy.write pool unlinked unlinked

theorem Tidy.loop {tick : BitVec 32} (tidy : Tidy c) (phase : c.phase = .ticking tick) : Tidy (c.loop tick) := by
  have rest := tidy.rest (by rw [phase]; rfl)
  have linked : ∀ h info, c.pool h = some info → info.linked = true := fun h info pool =>
    tidy.linked (by simp [phase]) pool
  unfold CTimerLayering.loop
  split
  · refine ⟨fun h => (tidy.homed h).congr rfl rfl rfl, fun _ => rest, by simp, ?_⟩
    intro h info pool unlinked
    exact absurd (linked h info pool) (by simp [unlinked])
  · have outside := outside_cascades c
    have homed : ∀ h, Homed (c.cascades.toWork .tv1 (Level.tv1.index c.last_tick)) [] h := fun h =>
      (tidy.homed h).cascades.1.toWork (outside.work_list.trans rest) _ _
    refine ⟨fun h => (homed h).congr rfl rfl rfl, by simp [Phase.emptied], by simp, ?_⟩
    intro h info pool unlinked
    have pool : c.pool h = some info := (tidy.homed h).cascades.2.symm.trans pool
    exact absurd (linked h info pool) (by simp [unlinked])

theorem Tidy.take {tick : BitVec 32} (tidy : Tidy c) (phase : c.phase = .working tick) : Tidy (c.take tick) := by
  have outside : ∀ tick h, c.phase ≠ .calling tick h := by simp [phase]
  unfold CTimerLayering.take
  cases work : c.work_list with
  | nil =>
    have next := tidy.nextTick outside work .ticked (.ticking tick) (by simp)
    rw [work] at next
    exact next
  | cons h hs =>
    have mem : h ∈ c.list [] .work := by
      rw [CTimerLayering.list, work]
      exact List.mem_cons_self
    obtain ⟨info, pool, linked⟩ := (tidy.homed h).of_mem mem
    dsimp only
    rw [pool]
    dsimp only
    split
    · exact tidy.destroy pool linked _
    · exact tidy.deliver outside _ _ _

theorem Tidy.ret {tick now : BitVec 32} (tidy : Tidy c) (phase : c.phase = .calling tick h) : Tidy (c.ret tick h now) := by
  obtain ⟨info, pool, -⟩ := tidy.called tick h phase
  unfold CTimerLayering.ret
  rw [pool]
  dsimp only
  split
  · exact tidy.finish phase
  · exact tidy.rearm phase _ _

/-- An update begins. -/
theorem Tidy.begin (tidy : Tidy c) (idle : c.phase = .idle) (tick : BitVec 32) : Tidy { c with phase := .ticking tick } where
  homed h := (tidy.homed h).congr rfl rfl rfl
  rest _ := tidy.rest (by rw [idle]; rfl)
  called _ _ busy := by cases busy
  calling h info pool unlinked := by
    have linked := tidy.linked (by simp [idle]) pool
    exact absurd linked (by simp [unlinked])

theorem Tidy.step {a : Action} (tidy : Tidy c) (next : step c a = some d) : Tidy d := by
  cases a with
  | addTimer elapse count data room =>
    simp only [Layering.step] at next
    split at next
    · exact tidy.addTimer next
    · cases next
  | adjustTimer h elapse count data =>
    simp only [Layering.step] at next
    split at next
    · cases next
      exact tidy.adjustTimer
    · cases next
  | removeTimer h =>
    simp only [Layering.step] at next
    split at next
    · cases next
      exact tidy.removeTimer
    · cases next
  | update tick =>
    simp only [Layering.step] at next
    split at next
    · next idle =>
      cases next
      exact tidy.begin idle tick
    · cases next
  | go =>
    simp only [Layering.step] at next
    split at next
    · next phase =>
      cases next
      exact tidy.loop phase
    · next phase =>
      cases next
      exact tidy.take phase
    · cases next
  | ret now =>
    simp only [Layering.step] at next
    split at next
    · next phase =>
      cases next
      exact tidy.ret phase
    · cases next

end Runs

end GameServer.Timers.Layering

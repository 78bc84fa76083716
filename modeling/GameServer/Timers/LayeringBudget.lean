import GameServer.Timers.LayeringNormal

/-!
# What one update does to a timer

A `Call` is an update on its way, with notes on the timers whose `OnTimer` was called, on those that were destroyed with
count 0 or removed, and on whether a timer was armed again `2 ^ 31` ticks ahead or more, which `__AddTimer` takes for the
past. `Going` is what holds all through it: a timer that was there before is there still or has gone, with one call less
to come for each call it got; and one that was called waits in a slot that comes after the last tick of the update.
-/

namespace GameServer.Timers.Layering

open GameServer.Lib

/-- The tick that the update goes up to. -/
def Phase.tick : Phase → Option (BitVec 32)
  | .idle => none
  | .ticking tick => some tick
  | .working tick => some tick
  | .calling tick _ => some tick

/-- The timer whose callback is running. -/
def Phase.callee : Phase → Option Handle
  | .calling _ h => some h
  | _ => none

structure Call extends NormalUpdate where
  /-- The timers whose `OnTimer` was called. -/
  delivered : List Handle
  /-- The timers destroyed with count 0, or removed. -/
  gone : List Handle
  /-- A timer was armed again `2 ^ 31` ticks ahead or more. -/
  far : Bool

namespace Call

/-- An update has begun. -/
def begin (s : NormalUpdate) : Call := ⟨s, [], [], false⟩

/-- The timer that the update is at. -/
def current (w : Call) : Option (Handle × STimerInfo) :=
  match w.phase with
  | .working _ => w.work_list.head?.bind fun h => (w.pool h).map fun info => (h, info)
  | .calling _ h => (w.pool h).map fun info => (h, info)
  | _ => none

/-- The timer that a call of `AddTimer` returns. -/
def created : NormalAction → Option Handle
  | .addTimer elapse _ _ room => if elapse.toInt ≤ 0 then none else room
  | _ => none

/-- The timer that is destroyed with count 0, or removed. -/
def leaving (w : Call) : NormalAction → Option Handle
  | .removeTimer h => some h
  | .go _ => w.current.bind fun (h, info) => if info.count = 0 then some h else none
  | .ret => w.current.bind fun (h, info) => if info.count = 0 then some h else none
  | _ => none

/-- The timer that is armed again when its callback is over expires too far ahead. -/
def armsFar (w : Call) : NormalAction → Bool
  | .ret => w.current.any fun (_, info) =>
    info.count ≠ 0 && 2 ^ 31 ≤ dist w.last_tick w.cur_tick + info.elapse.toNat
  | _ => false

/-- The notes after a step that leads to `s`. -/
def note (w : Call) (a : NormalAction) (s : NormalUpdate) : Call where
  toNormalUpdate := s
  delivered := w.delivered.filter (fun h => created a ≠ some h) ++
    if w.phase.callee = none then s.phase.callee.toList else []
  gone := (w.leaving a).toList ++ w.gone
  far := w.far || w.armsFar a

end Call

/-- A step of the update, with its notes; a new timer at the address of an old one is another timer. -/
def callStep (w : Call) (a : NormalAction) : Option Call := (normalStep w.toNormalUpdate a).map (w.note a)

/-- What happens in the update: callbacks add timers and remove them, and the clock, when it is read, does not go back and
is less than `2 ^ 31` ticks ahead. -/
def Reads (w : Call) : NormalAction → Prop
  | .adjustTimer _ _ _ _ => False
  | .update _ _ => False
  | .go now => 0 < w.elapse.toInt → dist w.last_tick w.cur_tick ≤ dist w.last_tick now ∧ dist w.last_tick now < 2 ^ 31
  | _ => True

instance (w : Call) (a : NormalAction) : Decidable (Reads w a) := by
  cases a <;> unfold Reads <;> infer_instance

/-- The place in the update's loops is the same as far as the slots are concerned. -/
structure SameTick (s t : NormalUpdate) : Prop where
  tick : t.phase.tick = s.phase.tick
  emptied : t.phase.emptied = s.phase.emptied
  last_tick : t.last_tick = s.last_tick

/-- All that a step of the update can do to the timer `h`. -/
inductive Change (w w' : Call) (h : Handle) : Prop where
  | apart (apart : Apart h w.toCTimerLayering w'.toCTimerLayering) (same : SameTick w.toNormalUpdate w'.toNormalUpdate)
      (delivered : w'.delivered.count h = w.delivered.count h)
  | looped (tick : BitVec 32) (phase : w.phase = .ticking tick) (wheel : w'.toCTimerLayering = w.loop tick)
      (delivered : w'.delivered.count h = w.delivered.count h)
  | ticked (tick : BitVec 32) (phase : w.phase = .working tick) (empty : w.work_list = [])
      (apart : Apart h w.toCTimerLayering w'.toCTimerLayering) (last_tick : w'.last_tick = w.last_tick + 1)
      (after : w'.phase = .ticking tick ∨ w'.phase = .idle) (delivered : w'.delivered.count h = w.delivered.count h)
  | created (free : w.pool h = none) (fresh : w'.delivered.count h = 0)
  | left (gone : h ∈ w'.gone) (off : Off w'.toCTimerLayering h) (delivered : w'.delivered.count h = w.delivered.count h)
  | called (tick : BitVec 32) (info : STimerInfo) (phase : w.phase = .working tick) (work : h ∈ w.work_list)
      (pool : w.pool h = some info) (linked : info.linked = true)
      (pool' : w'.pool h = some { info with linked := false, count := info.count - 1 })
      (delivered : w'.delivered.count h = w.delivered.count h + 1)
  | putBack (tick : BitVec 32) (info : STimerInfo) (phase : w.phase = .working tick) (work : h ∈ w.work_list)
      (pool : w.pool h = some info) (linked : info.linked = true)
      (pool' : w'.pool h = some { info with linked := true, expires := w'.cur_tick })
      (delivered : w'.delivered.count h = w.delivered.count h)
  | rearmed (tick : BitVec 32) (info : STimerInfo) (phase : w.phase = .calling tick h) (pool : w.pool h = some info)
      (pool' : w'.pool h = some { info with linked := true, expires := w.cur_tick + info.elapse })
      (sits : Sits w'.toCTimerLayering [] h (slotPlace w.last_tick (w.cur_tick + info.elapse)))
      (same : SameTick w.toNormalUpdate w'.toNormalUpdate)
      (near : w'.far = false → dist w.last_tick w.cur_tick + info.elapse.toNat < 2 ^ 31)
      (delivered : w'.delivered.count h = w.delivered.count h)

section Changes

variable {w w' : Call} {s : NormalUpdate} {a : NormalAction} {h : Handle} {tick now : BitVec 32} {info : STimerInfo}

theorem callStep_cases (step : callStep w a = some w') : ∃ s, normalStep w.toNormalUpdate a = some s ∧ w' = w.note a s := by
  obtain ⟨s, next, rfl⟩ := Option.map_eq_some_iff.1 step
  exact ⟨s, next, rfl⟩

/-- A step that begins no callback notes no call. -/
theorem count_delivered_note (quiet : w.phase.callee ≠ none ∨ s.phase.callee = none) (h : Handle) :
    (w.note a s).delivered.count h = if Call.created a = some h then 0 else w.delivered.count h := by
  have rest : (if w.phase.callee = none then s.phase.callee.toList else []) = [] := by
    rcases quiet with busy | idle
    · rw [if_neg busy]
    · simp [idle]
  unfold Call.note
  dsimp only
  rw [rest, List.append_nil]
  split
  · next new => exact List.count_eq_zero_of_not_mem (by simp [new])
  · next old => exact List.count_filter (by simpa using old)

theorem count_delivered_kept (old : Call.created a = none) (quiet : w.phase.callee ≠ none ∨ s.phase.callee = none) (h : Handle) :
    (w.note a s).delivered.count h = w.delivered.count h := by
  rw [count_delivered_note quiet, old, if_neg (by simp)]

theorem quiet_of_phase (phase : s.phase = w.phase) : w.phase.callee ≠ none ∨ s.phase.callee = none := by
  rw [phase]
  exact (em _).symm

theorem change_addTimer {elapse count : BitVec 32} {data : Nat} {room : Option Handle}
    (step : callStep w (.addTimer elapse count data room) = some w') (h : Handle) : Change w w' h := by
  obtain ⟨s, next, rfl⟩ := callStep_cases step
  simp only [normalStep] at next
  split at next
  · obtain ⟨c, added, rfl⟩ := Option.map_eq_some_iff.1 next
    unfold CTimerLayering.addTimer at added
    split at added
    · next negative =>
      cases added
      have old : Call.created (.addTimer elapse count data room) = none := if_pos negative
      exact .apart (.refl h _) ⟨rfl, rfl, rfl⟩ (count_delivered_kept old (quiet_of_phase rfl) h)
    · next positive =>
      have new : Call.created (.addTimer elapse count data room) = room := if_neg positive
      cases room with
      | none =>
        cases added
        exact .apart (.refl h _) ⟨rfl, rfl, rfl⟩ (count_delivered_kept new (quiet_of_phase rfl) h)
      | some h' =>
        dsimp only at added
        split at added
        · next free =>
          cases added
          by_cases same : h' = h
          · subst same
            refine .created free ?_
            rw [count_delivered_note, new, if_pos rfl]
            exact quiet_of_phase rfl
          · have apart := apart_addTimerInfo (c := w.toCTimerLayering) same ⟨false, w.last_tick + elapse, elapse, count, data⟩
            refine .apart ⟨apart.pool, apart.vec, apart.work_list⟩ ⟨rfl, rfl, rfl⟩ ?_
            rw [count_delivered_note, new, if_neg (by simpa using same)]
            exact quiet_of_phase rfl
        · cases added
  · cases next

theorem change_removeTimer {h' : Handle} (step : callStep w (.removeTimer h') = some w') (h : Handle) : Change w w' h := by
  obtain ⟨s, next, rfl⟩ := callStep_cases step
  simp only [normalStep] at next
  split at next
  · cases next
    unfold CTimerLayering.removeTimer
    cases pool : w.pool h' with
    | none => exact .apart (.refl h _) ⟨rfl, rfl, rfl⟩ (count_delivered_kept rfl (quiet_of_phase rfl) h)
    | some info =>
      dsimp only
      split
      · next linked =>
        by_cases same : h' = h
        · subst same
          refine .left (List.mem_append_left _ (List.mem_singleton_self h')) ?_
            (count_delivered_kept rfl (quiet_of_phase rfl) h')
          intro i pool'
          simp [Call.note] at pool'
        · have first := apart_detachTimer (c := w.toCTimerLayering) same info
          have apart := first.trans (apart_store same none)
          exact .apart ⟨apart.pool, apart.vec, apart.work_list⟩ ⟨rfl, rfl, rfl⟩
            (count_delivered_kept rfl (quiet_of_phase rfl) h)
      · next unlinked =>
        by_cases same : h' = h
        · subst same
          refine .left (List.mem_append_left _ (List.mem_singleton_self h')) ?_
            (count_delivered_kept rfl (quiet_of_phase rfl) h')
          exact .of_pool (Function.update_self _ _ _) (by simpa using unlinked)
        · have apart := apart_store (c := w.toCTimerLayering) same (some { info with count := 0 })
          exact .apart ⟨apart.pool, apart.vec, apart.work_list⟩ ⟨rfl, rfl, rfl⟩
            (count_delivered_kept rfl (quiet_of_phase rfl) h)
  · cases next

theorem current_working {hs : List Handle} (phase : w.phase = .working tick) (work : w.work_list = h :: hs)
    (pool : w.pool h = some info) : w.current = some (h, info) := by
  simp [Call.current, phase, work, pool]

theorem current_calling (phase : w.phase = .calling tick h) (pool : w.pool h = some info) : w.current = some (h, info) := by
  simp [Call.current, phase, pool]

/-- A timer that is found with count 0 leaves. -/
theorem mem_gone (leaving : w.leaving a = some h) : h ∈ (w.note a s).gone := by
  apply List.mem_append_left
  rw [leaving]
  exact List.mem_singleton_self h

theorem leaving_go (current : w.current = some (h, info)) (count : info.count = 0) : w.leaving (.go now) = some h := by
  unfold Call.leaving
  rw [current]
  exact if_pos count

theorem leaving_ret (current : w.current = some (h, info)) (count : info.count = 0) : w.leaving .ret = some h := by
  unfold Call.leaving
  rw [current]
  exact if_pos count

theorem near_of_note (current : w.current = some (h, info)) (count : info.count ≠ 0) (close : (w.note .ret s).far = false) :
    dist w.last_tick w.cur_tick + info.elapse.toNat < 2 ^ 31 := by
  have far : w.armsFar .ret = false := (Bool.or_eq_false_iff.1 close).2
  unfold Call.armsFar at far
  rw [current] at far
  have near : info.count ≠ 0 → dist w.last_tick w.cur_tick + info.elapse.toNat < 2 ^ 31 := by simpa using far
  exact near count

theorem change_take (ticking : Ticking w.toNormalUpdate) (phase : w.phase = .working tick) (now : BitVec 32) (h : Handle) :
    Change w (w.note (.go now) (w.take tick now)) h := by
  have taken := take_spec ticking.tidy tick now
  generalize w.take tick now = s at taken
  cases taken with
  | done empty phase' which wheel =>
    have after : s.phase = phase' := congrArg CTimerLayering.phase wheel
    have quiet : s.phase.callee = none := by
      rw [after]
      rcases which with ⟨rfl, -⟩ | rfl <;> rfl
    refine .ticked tick phase empty ?_ (congrArg CTimerLayering.last_tick wheel) ?_
      (count_delivered_kept rfl (.inr quiet) h)
    · exact ⟨by rw [Call.note, wheel]; rfl, fun l i => by rw [Call.note, wheel]; rfl, by rw [Call.note, wheel]; rfl⟩
    · rw [Call.note, after]
      exact which.imp_left And.left
  | destroyed h' hs info work pool linked count wheel =>
    have after : s.phase = .working tick := (congrArg CTimerLayering.phase wheel).trans phase
    have kept := count_delivered_kept (w := w) (a := .go now) rfl (.inr (congrArg Phase.callee after)) h
    have current := current_working phase work pool
    by_cases same : h' = h
    · subst same
      refine .left (mem_gone (leaving_go current count)) ?_ kept
      intro i pool'
      have gone : s.pool h' = none := by
        rw [wheel]
        exact Function.update_self _ _ _
      rw [Call.note, gone] at pool'
      cases pool'
    · have first := apart_detachTimer (c := w.toCTimerLayering) same info
      have apart := first.trans (apart_store same none)
      refine .apart ⟨?_, ?_, ?_⟩ ⟨?_, ?_, ?_⟩ kept
      · rw [Call.note, wheel]; exact apart.pool
      · rw [Call.note, wheel]; exact apart.vec
      · rw [Call.note, wheel]; exact apart.work_list
      · rw [Call.note, after, phase]
      · rw [Call.note, after, phase]
      · rw [Call.note, wheel]; rfl
  | putBack h' hs info work pool linked count wheel cur out exceeded =>
    have after : s.phase = .working tick := (congrArg CTimerLayering.phase wheel).trans phase
    have kept := count_delivered_kept (w := w) (a := .go now) rfl (.inr (congrArg Phase.callee after)) h
    by_cases same : h' = h
    · subst same
      refine .putBack tick info phase (by simp [work]) pool linked ?_ kept
      rw [Call.note, wheel]
      exact Function.update_self _ _ _
    · have first := apart_detachTimer (c := w.toCTimerLayering) same info
      have apart := first.trans (apart_addTimerInfo same { info with expires := s.cur_tick })
      refine .apart ⟨?_, ?_, ?_⟩ ⟨?_, ?_, ?_⟩ kept
      · rw [Call.note, wheel]; exact apart.pool
      · rw [Call.note, wheel]; exact apart.vec
      · rw [Call.note, wheel]; exact apart.work_list
      · rw [Call.note, after, phase]
      · rw [Call.note, after, phase]
      · rw [Call.note, wheel]; rfl
  | delivered h' hs info work pool linked count wheel =>
    have after : s.phase = .calling tick h' := congrArg CTimerLayering.phase wheel
    have called : (w.note (.go now) s).delivered = w.delivered ++ [h'] := by
      simp [Call.note, Call.created, Phase.callee, phase, after]
    by_cases same : h' = h
    · subst same
      refine .called tick info phase (by simp [work]) pool linked ?_ (by simp [called])
      rw [Call.note, wheel]
      exact Function.update_self _ _ _
    · have first := apart_detachTimer (c := w.toCTimerLayering) same info
      have apart := first.trans (apart_store same (some { info with linked := false, count := info.count - 1 }))
      refine .apart ⟨?_, ?_, ?_⟩ ⟨?_, ?_, ?_⟩ (by simp [called, same])
      · rw [Call.note, wheel]; exact apart.pool
      · rw [Call.note, wheel]; exact apart.vec
      · rw [Call.note, wheel]; exact apart.work_list
      · rw [Call.note, after, phase]; rfl
      · rw [Call.note, after, phase]; rfl
      · rw [Call.note, wheel]; rfl

theorem change_go (ticking : Ticking w.toNormalUpdate) (step : callStep w (.go now) = some w') (h : Handle) : Change w w' h := by
  obtain ⟨s, next, rfl⟩ := callStep_cases step
  simp only [normalStep] at next
  split at next
  · next tick phase =>
    cases next
    refine .looped tick phase rfl (count_delivered_kept rfl (.inr ?_) h)
    rcases loop_cases w.toCTimerLayering tick with idle | ⟨working, -⟩
    · exact congrArg Phase.callee idle
    · exact congrArg Phase.callee working
  · next tick phase =>
    rw [← Option.some.inj next]
    exact change_take ticking phase now h
  · cases next

theorem change_ret (ticking : Ticking w.toNormalUpdate) (step : callStep w .ret = some w') (h : Handle) : Change w w' h := by
  obtain ⟨s, next, rfl⟩ := callStep_cases step
  simp only [normalStep] at next
  split at next
  · next tick h' phase =>
    cases next
    obtain ⟨info, pool, unlinked⟩ := ticking.tidy.called tick h' phase
    have current := current_calling phase pool
    have kept : ∀ s, (w.note .ret s).delivered.count h = w.delivered.count h := fun s =>
      count_delivered_kept rfl (.inl (by simp [phase, Phase.callee])) h
    unfold NormalUpdate.ret
    rw [pool]
    dsimp only
    split
    · next count =>
      by_cases same : h' = h
      · subst same
        refine .left (mem_gone (leaving_ret current count)) ?_ (kept _)
        intro i pool'
        simp [Call.note] at pool'
      · have apart := apart_store (c := w.toCTimerLayering) same none
        refine .apart ⟨apart.pool, apart.vec, apart.work_list⟩ ⟨?_, ?_, rfl⟩ (kept _)
        · rw [phase]; rfl
        · rw [phase]; rfl
    · next count =>
      by_cases same : h' = h
      · subst same
        have away := (ticking.tidy.homed h').away (.of_pool pool unlinked)
        have sits := away.addTimerInfo { info with expires := w.cur_tick + info.elapse }
        refine .rearmed tick info phase pool (Function.update_self _ _ _) ?_ ⟨?_, ?_, rfl⟩ (near_of_note current count) (kept _)
        · exact sits.apart ⟨rfl, fun _ _ => rfl, rfl⟩
        · rw [phase]; rfl
        · rw [phase]; rfl
      · have apart := apart_addTimerInfo (c := w.toCTimerLayering) same { info with expires := w.cur_tick + info.elapse }
        refine .apart ⟨apart.pool, apart.vec, apart.work_list⟩ ⟨?_, ?_, rfl⟩ (kept _)
        · rw [phase]; rfl
        · rw [phase]; rfl
  · cases next

theorem change_of_step (ticking : Ticking w.toNormalUpdate) (reads : Reads w a) (step : callStep w a = some w') (h : Handle) :
    Change w w' h := by
  cases a with
  | addTimer => exact change_addTimer step h
  | adjustTimer => exact reads.elim
  | removeTimer => exact change_removeTimer step h
  | update => exact reads.elim
  | go => exact change_go ticking step h
  | ret => exact change_ret ticking step h

end Changes

/-- The timer was there at first; it is still there, with one call less to come for each call it got, or it has gone. -/
def Keeps (first : Handle → Option STimerInfo) (w : Call) (h : Handle) : Prop :=
  ∀ info, first h = some info → h ∉ w.gone → ∃ info', w.pool h = some info' ∧ info'.elapse = info.elapse ∧
    info'.data = info.data ∧ info'.count = info.count - BitVec.ofNat 32 (w.delivered.count h)

/-- The timer waits in a slot that comes after the last tick of the update. -/
def Waits (w : Call) (h : Handle) : Prop :=
  ∀ tick, w.phase.tick = some tick → ∀ info, w.pool h = some info → info.linked = true → ∃ p, Sits w.toCTimerLayering [] h p ∧
    Fits w.last_tick (fun _ => w.phase.emptied) 0 p info.expires ∧ dist w.last_tick tick ≤ dist w.last_tick info.expires

/-- The clock's last reading is not before the tick, and not too far ahead. -/
def Reading (s : NormalUpdate) : Prop :=
  ∀ tick, s.phase.tick = some tick → dist s.last_tick tick ≤ dist s.last_tick s.cur_tick ∧ dist s.last_tick s.cur_tick < 2 ^ 31

structure Going (first : Handle → Option STimerInfo) (w : Call) : Prop where
  ticking : Ticking w.toNormalUpdate
  reading : Reading w.toNormalUpdate
  keeps : ∀ h, Keeps first w h
  once : w.far = false → ∀ h, w.delivered.count h ≤ 1
  waits : w.far = false → ∀ h ∈ w.delivered, Waits w h

section Going

variable {first : Handle → Option STimerInfo} {w w' : Call} {s : NormalUpdate} {a : NormalAction} {h : Handle}
  {tick now : BitVec 32} {info : STimerInfo} {c : CTimerLayering} {p : Place}

theorem ticking_step (ticking : Ticking w.toNormalUpdate) (reads : Reads w a) (step : callStep w a = some w') :
    Ticking w'.toNormalUpdate := by
  obtain ⟨s, next, rfl⟩ := callStep_cases step
  have call : a.isCall = true → Ticking s := by
    intro call
    have called := called_of_isCall call next
    refine ⟨tidy_normalStep ticking.tidy next, ?_, ?_⟩
    · rw [called.phase, called.last_tick]
      exact ticking.working
    · rw [called.phase, called.last_tick]
      exact ticking.calling
  cases a with
  | addTimer => exact call rfl
  | adjustTimer => exact reads.elim
  | removeTimer => exact call rfl
  | update => exact reads.elim
  | go now => exact (ticking.turn (.go now next)).1
  | ret => exact (ticking.turn (.callback [] w.toNormalUpdate .refl next)).1

/-- A tick later both are one tick nearer. -/
theorem reading_tick {L tick cur : BitVec 32} (pos : 0 < dist L tick) (reading : dist L tick ≤ dist L cur ∧ dist L cur < 2 ^ 31) :
    dist (L + 1) tick ≤ dist (L + 1) cur ∧ dist (L + 1) cur < 2 ^ 31 := by
  have first := dist_succ pos
  have second := dist_succ (Nat.lt_of_lt_of_le pos reading.1)
  omega

theorem Reading.congr {t : NormalUpdate} (reading : Reading s) (same : SameTick s t) (cur : t.cur_tick = s.cur_tick) :
    Reading t := by
  intro tick phase
  rw [same.last_tick, cur]
  rw [same.tick] at phase
  exact reading tick phase

theorem reading_take (ticking : Ticking w.toNormalUpdate) (reading : Reading w.toNormalUpdate) (phase : w.phase = .working tick)
    (reads : Reads w (.go now)) : Reading (w.take tick now) := by
  have pos := ticking.working tick phase
  have before := reading tick (by rw [phase]; rfl)
  have taken := take_spec ticking.tidy tick now
  generalize w.take tick now = s at taken
  have timed : s.phase.tick = some tick → s.last_tick = w.last_tick →
      (0 < w.elapse.toInt ∧ s.cur_tick = now ∨ s.cur_tick = w.cur_tick) → Reading s := by
    intro after last_tick cur tick' phase'
    rw [after] at phase'
    obtain rfl := Option.some.inj phase'
    rw [last_tick]
    rcases cur with ⟨budget, read⟩ | kept
    · obtain ⟨later, near⟩ := reads budget
      rw [read]
      exact ⟨Nat.le_trans before.1 later, near⟩
    · rw [kept]
      exact before
  cases taken with
  | done empty phase' which wheel cur =>
    have after : s.phase = phase' := congrArg CTimerLayering.phase wheel
    have last_tick : s.last_tick = w.last_tick + 1 := congrArg CTimerLayering.last_tick wheel
    intro tick' busy
    rw [after] at busy
    rcases which with ⟨rfl, -⟩ | rfl
    · obtain rfl := Option.some.inj busy
      rw [last_tick, cur]
      exact reading_tick pos before
    · cases busy
  | destroyed h hs info work pool linked count wheel cur =>
    apply timed
    · rw [wheel]
      exact congrArg Phase.tick phase
    · rw [wheel]
      rfl
    · exact .inr cur
  | putBack h hs info work pool linked count wheel cur =>
    apply timed
    · rw [wheel]
      exact congrArg Phase.tick phase
    · rw [wheel]
      rfl
    · exact cur
  | delivered h hs info work pool linked count wheel cur =>
    apply timed
    · rw [wheel]
      rfl
    · rw [wheel]
      rfl
    · exact cur

theorem reading_step (ticking : Ticking w.toNormalUpdate) (reading : Reading w.toNormalUpdate) (reads : Reads w a)
    (step : callStep w a = some w') : Reading w'.toNormalUpdate := by
  obtain ⟨s, next, rfl⟩ := callStep_cases step
  have call : a.isCall = true → Reading s := by
    intro call
    have called := called_of_isCall call next
    exact reading.congr ⟨by rw [called.phase], by rw [called.phase], called.last_tick⟩ called.cur_tick
  cases a with
  | addTimer => exact call rfl
  | adjustTimer => exact reads.elim
  | removeTimer => exact call rfl
  | update => exact reads.elim
  | go now =>
    simp only [normalStep] at next
    split at next
    · next tick phase =>
      cases next
      rcases loop_cases w.toCTimerLayering tick with idle | ⟨working, last_tick, -⟩
      · intro tick' busy
        have idle : (w.loop tick).phase.tick = none := congrArg Phase.tick idle
        cases idle.symm.trans busy
      · intro tick' busy
        have working : (w.loop tick).phase.tick = some tick := congrArg Phase.tick working
        obtain rfl := Option.some.inj (working.symm.trans busy)
        have before := reading tick (by rw [phase]; rfl)
        rw [← last_tick] at before
        exact before
    · next tick phase =>
      rw [← Option.some.inj next]
      exact reading_take ticking reading phase reads
    · cases next
  | ret =>
    simp only [normalStep] at next
    split at next
    · next tick h phase =>
      obtain ⟨info, pool, -⟩ := ticking.tidy.called tick h phase
      unfold NormalUpdate.ret at next
      rw [pool] at next
      dsimp only at next
      split at next
      · cases next
        exact reading.congr ⟨by rw [phase]; rfl, by rw [phase]; rfl, rfl⟩ rfl
      · cases next
        exact reading.congr ⟨by rw [phase]; rfl, by rw [phase]; rfl, rfl⟩ rfl
    · cases next

theorem pool_loop (tidy : Tidy c) (tick : BitVec 32) (h : Handle) : (c.loop tick).pool h = c.pool h := by
  unfold CTimerLayering.loop
  split
  · rfl
  · exact (tidy.homed h).cascades.2

/-- What was noted stays noted. -/
theorem gone_mono (step : callStep w a = some w') (stays : h ∉ w'.gone) : h ∉ w.gone := by
  obtain ⟨s, -, rfl⟩ := callStep_cases step
  exact fun mem => stays (List.mem_append_right _ mem)

theorem far_mono (step : callStep w a = some w') (near : w'.far = false) : w.far = false := by
  obtain ⟨s, -, rfl⟩ := callStep_cases step
  exact (Bool.or_eq_false_iff.1 near).1

theorem Keeps.change (keeps : Keeps first w h) (tidy : Tidy w.toCTimerLayering) (change : Change w w' h)
    (mono : h ∉ w'.gone → h ∉ w.gone) : Keeps first w' h := by
  intro info was stays
  obtain ⟨info', pool, elapse, data, count⟩ := keeps info was (mono stays)
  cases change with
  | apart apart same delivered =>
    rw [← delivered] at count
    exact ⟨info', apart.pool.trans pool, elapse, data, count⟩
  | looped tick phase wheel delivered =>
    rw [← delivered] at count
    refine ⟨info', ?_, elapse, data, count⟩
    rw [wheel, pool_loop tidy]
    exact pool
  | ticked tick phase empty apart last_tick after delivered =>
    rw [← delivered] at count
    exact ⟨info', apart.pool.trans pool, elapse, data, count⟩
  | created free =>
    rw [free] at pool
    cases pool
  | left gone => exact absurd gone stays
  | called tick info'' phase work pool' linked after delivered =>
    obtain rfl := Option.some.inj (pool'.symm.trans pool)
    refine ⟨_, after, elapse, data, ?_⟩
    dsimp only
    rw [count, delivered, BitVec.ofNat_add, sub_sub]
    rfl
  | putBack tick info'' phase work pool' linked after delivered =>
    obtain rfl := Option.some.inj (pool'.symm.trans pool)
    rw [← delivered] at count
    exact ⟨_, after, elapse, data, count⟩
  | rearmed tick info'' phase pool' after sits same near delivered =>
    obtain rfl := Option.some.inj (pool'.symm.trans pool)
    rw [← delivered] at count
    exact ⟨_, after, elapse, data, count⟩

theorem dist_later {L cur elapse : BitVec 32} (near : dist L cur + elapse.toNat < 2 ^ 31) :
    dist L (cur + elapse) = dist L cur + elapse.toNat := by
  have sum : cur + elapse - L = cur - L + elapse := by
    rw [add_sub_right_comm]
  unfold dist at near ⊢
  rw [sum, BitVec.toNat_add]
  exact Nat.mod_eq_of_lt (by omega)

/-- In the chain of cascades a timer that is in a right place stays in one. -/
theorem fits_cascades (sits : Sits c [] h p) (pool : c.pool h = some info) (linked : info.linked = true)
    (fits : Fits c.last_tick (fun _ => false) 0 p info.expires) : ∃ p', Sits c.cascades [] h p' ∧
      Fits c.last_tick (fun l => decide (l ≠ .tv1)) 0 p' info.expires := by
  have through : c.cascades.pool h = some info ∧ ∃ p', Sits c.cascades [] h p' ∧
      Fits c.last_tick (fun l => decide (l ≠ .tv1)) 0 p' info.expires := by
    apply cascades_rule (J := fun d done => d.pool h = some info ∧ ∃ p', Sits d [] h p' ∧ Fits c.last_tick done 0 p' info.expires)
    · exact ⟨pool, p, sits, fits⟩
    · constructor
      · rintro d done l ⟨pool, p, sits, fits⟩ tick todo root upper even
        obtain ⟨sits', pool'⟩ := sits.cascade pool linked l (l.index d.last_tick)
        refine ⟨pool', _, sits', ?_⟩
        rw [tick] at even ⊢
        split
        · next here =>
          subst here
          simp only [Fits, todo] at fits
          have near := fits.comes even rfl
          have small : l.unit ≤ 2 ^ 26 := by
            cases l <;> simp [Level.unit_eq]
          apply placed_slotFor (by omega)
          rw [Function.update_of_ne upper.symm]
          exact .inr root
        · next other =>
          cases p with
          | slot l' i' =>
            simp only [Fits] at fits ⊢
            by_cases same : l' = l
            · subst same
              rw [todo] at fits
              rw [Function.update_self]
              exact fits.stays even fun here => other (by rw [here])
            · rwa [Function.update_of_ne same]
          | work => exact fits
          | tmp => exact fits
      · rintro d done done' ⟨pool, p, sits, fits⟩ tick through
        refine ⟨pool, p, sits, ?_⟩
        cases p with
        | slot l i =>
          simp only [Fits] at fits ⊢
          rcases through l with same | ⟨todo, odd⟩
          · rwa [same]
          · rw [todo] at fits
            rw [tick] at odd
            exact (fits.between odd).weaken
        | work => exact fits
        | tmp => exact fits
  exact through.2

theorem Waits.loop (waits : Waits w h) (tidy : Tidy w.toCTimerLayering) (phase : w.phase = .ticking tick)
    (wheel : w'.toCTimerLayering = w.loop tick) : Waits w' h := by
  intro tick' busy info pool linked
  have rest := tidy.rest (by rw [phase]; rfl)
  rw [wheel, pool_loop tidy] at pool
  obtain ⟨p, sits, fits, later⟩ := waits tick (by rw [phase]; rfl) info pool linked
  rw [wheel] at busy ⊢
  unfold CTimerLayering.loop at busy ⊢
  split at busy
  · cases busy
  · next late =>
    rw [if_neg late]
    have pos := dist_pos late
    rw [phase] at fits
    obtain rfl := Option.some.inj busy
    obtain ⟨p', sits', fits'⟩ := fits_cascades sits pool linked fits
    have outside := outside_cascades w.toCTimerLayering
    have taken := sits'.toWork (outside.work_list.trans rest) .tv1 (Level.tv1.index w.last_tick)
    have stay : p' ≠ .slot .tv1 (Level.tv1.index w.last_tick) := by
      rintro rfl
      have due := fits'.comes (Nat.mod_one _) rfl
      rw [Level.unit_eq] at due
      dsimp only at due
      omega
    rw [if_neg stay] at taken
    refine ⟨p', taken.apart ⟨rfl, fun _ _ => rfl, rfl⟩, ?_, ?_⟩
    · dsimp only [CTimerLayering.setVec]
      rw [outside.last_tick]
      cases p' with
      | slot l i =>
        simp only [Fits] at fits' ⊢
        by_cases first : l = .tv1
        · subst first
          exact fits'.stays (Nat.mod_one _) fun here => stay (by rw [here])
        · simpa [first, Phase.emptied] using fits'
      | work => exact fits'
      | tmp => exact fits'
    · dsimp only [CTimerLayering.setVec]
      rw [outside.last_tick]
      exact later

/-- What is in the work list is due now, before the last tick of the update. -/
theorem Waits.not_work (waits : Waits w h) (ticking : Ticking w.toNormalUpdate) (phase : w.phase = .working tick)
    (pool : w.pool h = some info) (linked : info.linked = true) : h ∉ w.work_list := by
  intro work
  have pos := ticking.working tick phase
  obtain ⟨p, sits, fits, later⟩ := waits tick (by rw [phase]; rfl) info pool linked
  obtain rfl := sits.only .work work
  have due : info.expires = w.last_tick := fits
  have zero : dist w.last_tick w.last_tick = 0 := by simp [dist]
  rw [due, zero] at later
  omega

theorem Waits.change (waits : h ∈ w.delivered → Waits w h) (ticking : Ticking w.toNormalUpdate) (reading : Reading w.toNormalUpdate)
    (near : w'.far = false) (change : Change w w' h) : h ∈ w'.delivered → Waits w' h := by
  intro called
  have mem : w'.delivered.count h = w.delivered.count h → h ∈ w.delivered := by
    intro same
    rw [← List.count_pos_iff, ← same]
    exact List.count_pos_iff.2 called
  cases change with
  | apart apart same delivered =>
    intro tick busy info pool linked
    rw [same.tick] at busy
    obtain ⟨p, sits, fits, later⟩ := waits (mem delivered) tick busy info (apart.pool.symm.trans pool) linked
    rw [same.last_tick, same.emptied]
    exact ⟨p, sits.apart apart, fits, later⟩
  | looped tick phase wheel delivered => exact (waits (mem delivered)).loop ticking.tidy phase wheel
  | ticked tick phase empty apart last_tick after delivered =>
    intro tick' busy info pool linked
    obtain ⟨p, sits, fits, later⟩ := waits (mem delivered) tick (by rw [phase]; rfl) info (apart.pool.symm.trans pool) linked
    rcases after with after | after
    · rw [after] at busy
      obtain rfl := Option.some.inj busy
      have pos := ticking.working tick phase
      have first := dist_succ pos
      have second := dist_succ (Nat.lt_of_lt_of_le pos later)
      rw [last_tick, after]
      refine ⟨p, sits.apart apart, ?_, by omega⟩
      rw [phase] at fits
      cases p with
      | slot l i => exact Placed.next fits
      | work =>
        have once := sits.once
        rw [CTimerLayering.list, empty] at once
        cases once
      | tmp => cases sits.once
    · rw [after] at busy
      cases busy
  | created free fresh => exact absurd (List.count_pos_iff.2 called) (by omega)
  | left gone off =>
    intro tick busy info pool linked
    rw [off info pool] at linked
    cases linked
  | called tick info phase work pool linked after =>
    intro tick' busy info' pool' linked'
    rw [after] at pool'
    rw [← Option.some.inj pool'] at linked'
    cases linked'
  | putBack tick info phase work pool linked after delivered =>
    exact absurd work ((waits (mem delivered)).not_work ticking phase pool linked)
  | rearmed tick info phase pool after sits same close delivered =>
    intro tick' busy info' pool' linked'
    obtain rfl := Option.some.inj (after.symm.trans pool')
    rw [same.tick, phase] at busy
    obtain rfl := Option.some.inj busy
    have pos := ticking.calling tick h phase
    have late := (reading tick (by rw [phase]; rfl)).1
    have bound := close near
    have ahead := dist_later bound
    have later : dist w.last_tick tick ≤ dist w.last_tick (w.cur_tick + info.elapse) := by omega
    rw [same.last_tick, same.emptied, phase]
    refine ⟨_, sits, ?_, later⟩
    exact @placed_slotFor _ _ (fun _ => true) (by omega) (.inl (by omega))

theorem once_change (once : w.delivered.count h ≤ 1) (waits : h ∈ w.delivered → Waits w h) (ticking : Ticking w.toNormalUpdate)
    (change : Change w w' h) : w'.delivered.count h ≤ 1 := by
  cases change with
  | apart apart same delivered => exact delivered.trans_le once
  | looped tick phase wheel delivered => exact delivered.trans_le once
  | ticked tick phase empty apart last_tick after delivered => exact delivered.trans_le once
  | created free fresh => exact fresh.trans_le (Nat.zero_le 1)
  | left gone off delivered => exact delivered.trans_le once
  | called tick info phase work pool linked after delivered =>
    have first : h ∉ w.delivered := fun mem => (waits mem).not_work ticking phase pool linked work
    rw [delivered, List.count_eq_zero_of_not_mem first]
  | putBack tick info phase work pool linked after delivered => exact delivered.trans_le once
  | rearmed tick info phase pool after sits same near delivered => exact delivered.trans_le once

theorem Going.step (going : Going first w) (reads : Reads w a) (step : callStep w a = some w') : Going first w' where
  ticking := ticking_step going.ticking reads step
  reading := reading_step going.ticking going.reading reads step
  keeps h := (going.keeps h).change going.ticking.tidy (change_of_step going.ticking reads step h) (gone_mono step)
  once near h := by
    have near' := far_mono step near
    exact once_change (going.once near' h) (going.waits near' h) going.ticking (change_of_step going.ticking reads step h)
  waits near h := by
    have near' := far_mono step near
    exact Waits.change (going.waits near' h) going.ticking going.reading near (change_of_step going.ticking reads step h)

theorem going_begin {t : NormalUpdate} {tick elapse : BitVec 32} (tidy : Tidy s.toCTimerLayering)
    (begun : normalStep s (.update tick elapse) = some t) (near : dist s.last_tick tick < 2 ^ 31) :
    Going s.pool (.begin t) := by
  have tidy' := tidy_normalStep tidy begun
  simp only [normalStep] at begun
  split at begun
  · cases begun
    refine ⟨.of_ticking tidy' rfl, ?_, ?_, ?_, ?_⟩
    · intro tick' phase
      obtain rfl := Option.some.inj phase
      exact ⟨Nat.le_refl _, near⟩
    · intro h info was _
      exact ⟨info, was, rfl, rfl, by simp [Call.begin]⟩
    · intro _ h
      exact Nat.zero_le 1
    · intro _ h mem
      cases mem
  · cases begun

end Going

/-- What a turn of the inner loop does with the timer `h` that it takes out. -/
inductive Outcome (w : Call) (tick : BitVec 32) (h : Handle) (info : STimerInfo) (w' : Call) : Prop where
  | destroyed (count : info.count = 0) (pool : w'.pool h = none)
  | delivered (count : info.count ≠ 0) (phase : w'.phase = .calling tick h)
      (pool : w'.pool h = some { info with linked := false, count := info.count - 1 })
  | putBack (count : info.count ≠ 0) (exceeded : w.is_time_out = true ∨ 0 < w.elapse.toInt ∧ w'.cur_tick - tick > w.elapse)
      (pool : w'.pool h = some { info with expires := w'.cur_tick })
      (later : 0 < dist w'.last_tick w'.cur_tick ∧ dist w'.last_tick w'.cur_tick < 2 ^ 31)

theorem Going.outcome {first : Handle → Option STimerInfo} {w w' : Call} {tick now : BitVec 32} {h : Handle} {hs : List Handle}
    (going : Going first w) (phase : w.phase = .working tick) (work : w.work_list = h :: hs) (reads : Reads w (.go now))
    (step : callStep w (.go now) = some w') : ∃ info, w.pool h = some info ∧ Outcome w tick h info w' := by
  have reading := reading_step going.ticking going.reading reads step
  have ticking := ticking_step going.ticking reads step
  obtain ⟨s, next, rfl⟩ := callStep_cases step
  simp only [normalStep, phase] at next
  have taken := take_spec going.ticking.tidy tick now
  rw [Option.some.inj next] at taken
  have head : ∀ {h' hs'}, w.work_list = h' :: hs' → h' = h := by
    intro h' hs' work'
    rw [work] at work'
    exact (List.cons.inj work').1.symm
  cases taken with
  | done empty =>
    rw [work] at empty
    cases empty
  | destroyed h' hs' info work' pool linked count wheel =>
    obtain rfl := head work'
    refine ⟨info, pool, .destroyed count ?_⟩
    rw [Call.note, wheel]
    exact Function.update_self _ _ _
  | putBack h' hs' info work' pool linked count wheel cur out exceeded =>
    obtain rfl := head work'
    have after : s.phase = .working tick := by
      rw [wheel]
      exact phase
    have pos := ticking.working tick after
    have timed := reading tick (congrArg Phase.tick after)
    refine ⟨info, pool, .putBack count exceeded ?_ ⟨Nat.lt_of_lt_of_le pos timed.1, timed.2⟩⟩
    rw [Call.note, wheel, linked]
    exact Function.update_self _ _ _
  | delivered h' hs' info work' pool linked count wheel =>
    obtain rfl := head work'
    refine ⟨info, pool, .delivered count ?_ ?_⟩
    · rw [Call.note, wheel]
    · rw [Call.note, wheel]
      exact Function.update_self _ _ _

/-- **The update with a budget.** It ends, whatever the clock reads and whatever the callbacks do. With a clock that does not
go back and callbacks that add and remove timers: it calls each timer once at most, unless one is armed again `2 ^ 31` ticks
ahead or more; each timer it takes out is destroyed, called or put back; and what was there before is there still, but for
the calls that it got, and is linked again when the update is over, unless it was destroyed or removed. -/
theorem update_delivers {start tick elapse : BitVec 32} {as bs : List NormalAction} {s t : NormalUpdate} {w : Call}
    (run : Runs normalStep (fun _ _ => True) (.init start) as s) (begun : normalStep s (.update tick elapse) = some t)
    (near : dist s.last_tick tick < 2 ^ 31) (call : Runs callStep Reads (.begin t) bs w) :
    Returns UpdateTurn (fun s => s.phase = .idle) t ∧ (w.far = false → w.delivered.Nodup) ∧
      (∀ tick now h hs w', w.phase = .working tick → w.work_list = h :: hs → Reads w (.go now) → callStep w (.go now) = some w' →
        ∃ info, w.pool h = some info ∧ Outcome w tick h info w') ∧
      ∀ h info, s.pool h = some info → h ∉ w.gone → ∃ info', w.pool h = some info' ∧ info'.elapse = info.elapse ∧
        info'.data = info.data ∧ info'.count = info.count - BitVec.ofNat 32 (w.delivered.count h) ∧
        (w.phase = .idle → info'.linked = true ∧ ∃ p, Sits w.toCTimerLayering [] h p) := by
  have tidy := run.invariant (fun s => Tidy s.toCTimerLayering) (tidy_init start) fun _ _ _ tidy _ next =>
    tidy_normalStep tidy next
  have going := call.invariant (Going s.pool) (going_begin tidy begun near) fun _ _ _ going reads step =>
    going.step reads step
  refine ⟨update_returns run begun, ?_, ?_, ?_⟩
  · intro close
    exact List.nodup_iff_count_le_one.2 (going.once close)
  · intro tick now h hs w' phase work reads step
    exact going.outcome phase work reads step
  · intro h info was stays
    obtain ⟨info', pool, elapse, data, count⟩ := going.keeps h info was stays
    refine ⟨info', pool, elapse, data, count, ?_⟩
    intro idle
    have linked := going.ticking.tidy.linked (by simp [idle]) pool
    refine ⟨linked, ?_⟩
    cases going.ticking.tidy.homed h with
    | linked info p pool linked sits => exact ⟨p, sits⟩
    | off off =>
      rw [off info' pool] at linked
      cases linked

/-- A wheel one tick on, with two timers due at the next tick. -/
def dueState : NormalUpdate := (runChecked normalStep (fun _ _ => true) (.init 0)
  [.addTimer 2 3 0 (some 7), .addTimer 2 3 0 (some 8), .update 1 0, .go 1, .go 1, .go 1]).getD (.init 0)

theorem dueState_run : Runs normalStep (fun _ _ => True) (.init 0)
    [.addTimer 2 3 0 (some 7), .addTimer 2 3 0 (some 8), .update 1 0, .go 1, .go 1, .go 1] dueState := by
  have checked : runChecked normalStep (fun _ _ => true) (.init 0)
      [.addTimer 2 3 0 (some 7), .addTimer 2 3 0 (some 8), .update 1 0, .go 1, .go 1, .go 1] = some dueState :=
    (Option.some_get (by rfl)).symm
  exact Runs.of_checked (fun _ _ _ => trivial) checked

/-- An update to tick 3 with budget 1: the clock reads 3, then 9, and the second timer is put back. -/
theorem update_delivers_two : ∃ w, Runs callStep Reads (.begin ⟨{ dueState.toCTimerLayering with phase := .ticking 3 }, 1, 3, false⟩)
    [.go 3, .go 3, .go 3, .go 3, .ret, .go 9, .go 9] w ∧ w.delivered.Nodup ∧ w.delivered = [7] ∧
      ∃ info p, w.pool 8 = some info ∧ info.count = 3 ∧ Sits w.toCTimerLayering [] 8 p := by
  have ran : ∃ w, Runs callStep Reads (.begin ⟨{ dueState.toCTimerLayering with phase := .ticking 3 }, 1, 3, false⟩)
      [.go 3, .go 3, .go 3, .go 3, .ret, .go 9, .go 9] w ∧ (w.far = false ∧ w.delivered = [7] ∧ w.gone = [] ∧ w.phase = .idle) := by
    apply Runs.exists_of_decide
    decide +kernel
  obtain ⟨w, call, near, delivered, gone, idle⟩ := ran
  have begun : normalStep dueState (.update 3 1) = some ⟨{ dueState.toCTimerLayering with phase := .ticking 3 }, 1, 3, false⟩ := rfl
  obtain ⟨-, nodup, -, still⟩ := update_delivers dueState_run begun (by decide +kernel) call
  obtain ⟨info, pool, -, -, count, there⟩ := still 8 ⟨true, 2, 2, 3, 0⟩ (by rfl) (by simp [gone])
  obtain ⟨-, p, sits⟩ := there idle
  exact ⟨w, call, nodup near, delivered, info, p, pool, by simpa [delivered] using count, sits⟩

/-- A timer that is armed again `2 ^ 31` ticks ahead is taken for one of the past, and is called again 256 ticks later. -/
theorem delivered_twice : ∃ t w, Runs normalStep (fun _ _ => True) (.init 0)
      [.addTimer 2 3 0 (some 7), .addTimer 2 3 0 (some 8), .update 1 0, .go 1, .go 1, .go 1] dueState ∧
    normalStep dueState (.update 0x80000000 0) = some t ∧ dist dueState.last_tick 0x80000000 < 2 ^ 31 ∧
    Runs callStep Reads (.begin t) (List.replicate 4 (.go 0x80000000) ++ [.removeTimer 8, .ret] ++
      List.replicate 513 (.go 0x80000000)) w ∧
    ¬ w.delivered.Nodup := by
  have ran : ∃ w, Runs callStep Reads (.begin ⟨{ dueState.toCTimerLayering with phase := .ticking 0x80000000 }, 0, 0x80000000, false⟩)
      (List.replicate 4 (.go 0x80000000) ++ [.removeTimer 8, .ret] ++ List.replicate 513 (.go 0x80000000)) w ∧
        ¬ w.delivered.Nodup := by
    apply Runs.exists_of_decide
    decide +kernel
  obtain ⟨w, call, twice⟩ := ran
  exact ⟨_, w, dueState_run, rfl, by decide +kernel, call, twice⟩

end GameServer.Timers.Layering

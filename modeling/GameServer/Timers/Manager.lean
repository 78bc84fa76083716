import GameServer.Lib.Agenda
import GameServer.Lib.Heap
import GameServer.Lib.Run
import Mathlib.Data.Rat.Floor

/-!
# The timer manager of xlib

`TimerManager` keeps pointers to its timers in a vector that `std::push_heap` and `std::pop_heap` order by `_next`.
`Update` takes the root away as long as it is due or released; a released timer is deleted, and any other one is put
forward by its interval, called, and pushed back unless it has been called `_loop_count` times.

The model cuts `Update` where `func` is called: `turn` is one pass of its loop up to the call, `back` what follows the
call, and what the callback does stands between the two. A pointer is the number of its timer's creation; `none` is
undefined behaviour, which here means that a pointer to a deleted timer is used. Times are exact, and `_loop_count` does
not overflow. `history` is what has happened in the run: the timers as they were created, those that `RemoveTimer` was
called for, and each call with `_next` as it was then.
-/

namespace GameServer.Timers.Manager

open GameServer.Lib

structure Timer where
  _interval : ℚ
  _next : ℚ
  _loop_count : Int
  bRelease : Bool
deriving DecidableEq

namespace Timer

def IntervalTimer (Interval : ℚ) (loop_count : Int) (now_interval : ℚ) : Timer :=
  ⟨Interval, now_interval + Interval, loop_count, false⟩

def time (t : Timer) : ℚ := t._next

def Passed (t : Timer) (now : ℚ) : Bool := now ≥ t._next

def release (t : Timer) : Timer := { t with bRelease := true }

def IsRelease (t : Timer) : Bool := t.bRelease

def Reset (t : Timer) : Timer := { t with _next := t._next + t._interval }

end Timer

set_option linter.dupNamespace false in
structure TimerManager where
  Timers : List Nat
  _interval : ℚ
  _create_time : ℚ
  /-- The timers behind the pointers. -/
  timer : Nat → Option Timer
  made : Nat
  phase : Phase
  history : History ℚ

/-- The due points of a timer that is created with `loop_count`, at the next of them `first`. -/
def job (first Interval : ℚ) (loop_count : Int) : Job ℚ :=
  ⟨first, Interval, if 0 < loop_count then some loop_count.toNat else none⟩

namespace TimerManager

def new (_create_time : ℚ) : TimerManager := ⟨[], 0, _create_time, fun _ => none, 0, .rest, ⟨[], [], [], []⟩⟩

def time (m : TimerManager) (p : Nat) : ℚ := ((m.timer p).map Timer.time).getD 0

def Comparator (m : TimerManager) (a b : Nat) : Prop := m.time a > m.time b

instance decidableComparator (m : TimerManager) : DecidableRel m.Comparator := fun a b =>
  inferInstanceAs (Decidable (m.time b < m.time a))

def Live (m : TimerManager) (p : Nat) : Prop := (m.timer p).isSome = true

instance decidableLive (m : TimerManager) : DecidablePred m.Live := fun _ => inferInstanceAs (Decidable (_ = true))

def put (m : TimerManager) (p : Nat) (t : Timer) : TimerManager := { m with timer := Function.update m.timer p (some t) }

def delete (m : TimerManager) (p : Nat) : TimerManager := { m with timer := Function.update m.timer p none }

section Heaps

variable (S : StdHeap)

/-- `Timers.push_back` and `std::push_heap`. -/
def push (m : TimerManager) (p : Nat) : Option TimerManager :=
  if ∀ q ∈ m.Timers ++ [p], m.Live q then some { m with Timers := S.push_heap m.Comparator (m.Timers ++ [p]) } else none

/-- `std::pop_heap` and `Timers.pop_back`. -/
def pop (m : TimerManager) : Option TimerManager :=
  if ∀ q ∈ m.Timers, m.Live q then some { m with Timers := (S.pop_heap m.Comparator m.Timers).dropLast } else none

/-- Both functions of this name; the one that returns the pointer passes -1 for `loop_count`. -/
def AddIntervalTimer (m : TimerManager) (Interval : ℚ) (loop_count : Int) : Option TimerManager :=
  let t := Timer.IntervalTimer Interval loop_count m._interval
  let added := m.put m.made t
  { added with made := m.made + 1, history := m.history.add (job t._next Interval loop_count) }.push S m.made

def RemoveTimer (m : TimerManager) : (tHandle : Option Nat) → Option TimerManager
  | none => some m
  | some p => (m.timer p).map fun t => { m.put p t.release with history := m.history.release p }

/-- `Update` up to its loop. -/
def Update (m : TimerManager) (_update_time : ℚ) : TimerManager :=
  { m with _interval := _update_time - m._create_time, phase := .sweep, history := m.history.start }

/-- The rest of a pass of the loop after `pTimer->update`. -/
def back (m : TimerManager) (pTimer : Nat) : Option TimerManager :=
  (m.timer pTimer).bind fun t =>
    let t := { t with _loop_count := t._loop_count - 1 }
    let m := { m.put pTimer t with phase := .sweep }
    if t._loop_count = 0 then some (m.delete pTimer) else m.push S pTimer

/-- `Timer::update` up to its call of `func`. -/
def update (m : TimerManager) (pTimer : Nat) (t : Timer) : Option TimerManager :=
  if t.Passed m._interval then
    some { m.put pTimer t.Reset with phase := .call pTimer, history := m.history.call pTimer t._next }
  else m.back S pTimer

/-- The condition of the loop and a pass of it. -/
def turn (m : TimerManager) : Option TimerManager :=
  match m.Timers with
  | [] => some { m with phase := .rest }
  | pTimer :: _ => (m.timer pTimer).bind fun t =>
    if t.Passed m._interval || t.IsRelease then
      (m.pop S).bind fun m => if t.IsRelease then some (m.delete pTimer) else m.update S pTimer t
    else some { m with phase := .rest }

end Heaps

end TimerManager

open TimerManager

inductive Act where
  | AddIntervalTimer (Interval : ℚ) (loop_count : Int)
  | RemoveTimer (tHandle : Option Nat)
  | Update (_update_time : ℚ)
  | turn
  | back
deriving DecidableEq

/-- The program calls in from outside of `Update` and from callbacks, and `Update` from outside only. -/
def step (S : StdHeap) (m : TimerManager) : Act → Option TimerManager
  | .AddIntervalTimer Interval loop_count => if m.phase = .sweep then none else m.AddIntervalTimer S Interval loop_count
  | .RemoveTimer tHandle => if m.phase = .sweep then none else m.RemoveTimer tHandle
  | .Update _update_time => if m.phase = .rest then some (m.Update _update_time) else none
  | .turn => if m.phase = .sweep then m.turn S else none
  | .back => match m.phase with
    | .call pTimer => m.back S pTimer
    | _ => none

/-- Intervals are positive and the clock does not go back. -/
def Ok (m : TimerManager) : Act → Prop
  | .AddIntervalTimer Interval _ => 0 < Interval
  | .Update _update_time => m._create_time + m._interval ≤ _update_time
  | .RemoveTimer _ | .turn | .back => True

instance decidableOk (m : TimerManager) : (act : Act) → Decidable (Ok m act)
  | .AddIntervalTimer Interval _ => inferInstanceAs (Decidable (0 < Interval))
  | .Update _update_time => inferInstanceAs (Decidable (m._create_time + m._interval ≤ _update_time))
  | .RemoveTimer _ | .turn | .back => .isTrue trivial

/-! ### The vector -/

/-- The vector is a heap, and its pointers lead to timers, each to another one. -/
structure Heaped (m : TimerManager) : Prop where
  live : ∀ p ∈ m.Timers, m.Live p
  nodup : m.Timers.Nodup
  heap : IsHeap m.Comparator m.Timers

section Vector

variable {S : StdHeap} {m m' : TimerManager} {p q : Nat} {l : List Nat} {t : Timer}

theorem time_of (here : m.timer p = some t) : m.time p = t._next := by
  rw [TimerManager.time, here]
  rfl

theorem live_of (here : m.timer p = some t) : m.Live p := by
  rw [Live, here]
  rfl

theorem weak_comparator (m : TimerManager) : IsStrictWeakOrder Nat m.Comparator := weak_of_key m.time

/-- The heap depends on the due points of the timers in it. -/
theorem Heaped.congr (heaped : Heaped m) (timers : m'.Timers = m.Timers)
    (same : ∀ q ∈ m.Timers, m'.Live q ∧ m'.time q = m.time q) : Heaped m' := by
  refine ⟨?_, ?_, ?_⟩
  · rw [timers]
    exact fun q mem => (same q mem).1
  · rw [timers]
    exact heaped.nodup
  · rw [timers]
    apply heaped.heap.congr
    intro q memQ r memR before
    rw [Comparator, (same q memQ).2, (same r memR).2] at before
    exact before

/-- A timer outside of the vector may change or go. -/
theorem Heaped.outside (heaped : Heaped m) (outside : p ∉ m.Timers) (timers : m'.Timers = m.Timers)
    (others : ∀ q, q ≠ p → m'.timer q = m.timer q) : Heaped m' := by
  apply heaped.congr timers
  intro q mem
  have same := others q fun e => outside (e ▸ mem)
  refine ⟨?_, congrArg (fun o => (Option.map Timer.time o).getD 0) same⟩
  rw [Live, same]
  exact heaped.live q mem

theorem push_spec (heaped : Heaped m) (live : m.Live p) (new : p ∉ m.Timers) : ∃ l,
    m.push S p = some { m with Timers := l } ∧ l.Perm (m.Timers ++ [p]) ∧ Heaped { m with Timers := l } := by
  have weak := weak_comparator m
  have all : ∀ q ∈ m.Timers ++ [p], m.Live q := by
    intro q mem
    rcases List.mem_append.1 mem with mem | mem
    · exact heaped.live q mem
    · exact List.mem_singleton.1 mem ▸ live
  have perm := S.push_perm m.Comparator (m.Timers ++ [p])
  have nodup : (m.Timers ++ [p]).Nodup := heaped.nodup.append (List.nodup_singleton p) (List.disjoint_singleton.2 new)
  exact ⟨_, if_pos all, perm, fun q mem => all q (perm.subset mem), perm.nodup_iff.2 nodup, S.pushed m.Comparator m.Timers p heaped.heap⟩

theorem pop_spec (heaped : Heaped m) (timers : m.Timers = p :: l) : ∃ rest,
    m.pop S = some { m with Timers := rest } ∧ rest.Perm l ∧ Heaped { m with Timers := rest } := by
  have weak := weak_comparator m
  have perm := S.pop_perm m.Comparator m.Timers
  obtain ⟨live, nodup, heap⟩ := heaped
  rw [timers] at perm heap nodup live
  obtain ⟨rest, popped, heap'⟩ := S.popped m.Comparator p l heap
  have same : rest.Perm l := by
    rw [popped] at perm
    exact ((List.perm_append_singleton p rest).symm.trans perm).cons_inv
  refine ⟨rest, ?_, same, fun q mem => live q (List.mem_cons_of_mem p (same.subset mem)), same.nodup_iff.2 (List.nodup_cons.1 nodup).2, heap'⟩
  rw [TimerManager.pop, if_pos (timers ▸ live), timers, popped, List.dropLast_concat]

theorem root_first (heaped : Heaped m) (timers : m.Timers = p :: l) : ∀ q ∈ m.Timers, m.time p ≤ m.time q := by
  have heap := heaped.heap
  rw [timers] at heap ⊢
  exact IsHeap.root_le heap

end Vector

/-! ### Refinement -/

/-- What a timer's fields say of its job. Between the call and the decrement `_loop_count` is one behind: `called`. -/
structure Keeps (t : Timer) (b : Job ℚ) (s : History ℚ) (p : Nat) (called : Int) : Prop where
  interval : t._interval = b.interval
  next : t._next = s.next p
  released : t.bRelease = true ↔ p ∈ s.released
  unlimited : b.limit = none → t._loop_count ≤ 0
  counted : ∀ n, b.limit = some n → t._loop_count = n - s.calls p + called

namespace TimerManager

def called (m : TimerManager) (p : Nat) : Int := if m.phase = .call p then 1 else 0

/-- The manager as an agenda on which the timers `listed` are. -/
def agenda (m : TimerManager) (listed : Finset Nat) : Agenda ℚ := ⟨m.history, listed, m._interval, m.phase⟩

end TimerManager

/-- The timers that exist are on the agenda, and the vector holds them but for the one that is being called. -/
structure Refines (m : TimerManager) (listed : Finset Nat) : Prop where
  inv : (m.agenda listed).Inv
  made : m.made = m.history.jobs.length
  live : ∀ p, m.Live p ↔ p ∈ listed
  keeps : ∀ p t, m.timer p = some t → ∃ b, m.history.jobs[p]? = some b ∧ Keeps t b m.history p (m.called p)
  pointers : ∀ p, p ∈ m.Timers ↔ p ∈ listed ∧ m.phase ≠ .call p
  heaped : Heaped m

section Refinement

variable {S : StdHeap} {m m' : TimerManager} {listed : Finset Nat} {p q : Nat} {l : List Nat} {t : Timer} {b : Job ℚ}
  {Interval _update_time : ℚ} {loop_count : Int}

theorem refines_new (_create_time : ℚ) : Refines (new _create_time) ∅ where
  inv := .empty
  made := rfl
  live p := by simp [Live, new]
  keeps p t here := by cases here
  pointers p := by simp [new]
  heaped := ⟨nofun, .nil, isHeap_nil⟩

theorem Refines.lt (refines : Refines m listed) (mem : p ∈ listed) : p < m.made := by
  rw [refines.made]
  exact refines.inv.listed p mem

theorem Refines.timer (refines : Refines m listed) (mem : p ∈ listed) : ∃ t b, m.timer p = some t ∧
    m.history.jobs[p]? = some b ∧ Keeps t b m.history p (m.called p) := by
  obtain ⟨t, here⟩ := Option.isSome_iff_exists.1 ((refines.live p).2 mem)
  obtain ⟨b, job, keeps⟩ := refines.keeps p t here
  exact ⟨t, b, here, job, keeps⟩

theorem Refines.time (refines : Refines m listed) (mem : p ∈ listed) : m.time p = m.history.next p := by
  obtain ⟨t, b, here, -, keeps⟩ := refines.timer mem
  rw [time_of here, keeps.next]

theorem limit_job {first : ℚ} : (job first Interval loop_count).limit ≠ some 0 := by
  unfold job
  split_ifs with pos
  · intro zero
    have none' := Option.some.inj zero
    omega
  · intro zero
    cases zero

/-- A timer that has just been created. -/
theorem keeps_created (none' : m.history.calls p = 0) (new : m.history.jobs.length = p) (kept : p ∉ m.history.released) :
    Keeps (Timer.IntervalTimer Interval loop_count m._interval) (job (m._interval + Interval) Interval loop_count)
      (m.history.add (job (m._interval + Interval) Interval loop_count)) p 0 := by
  subst new
  have next : (m.history.add (job (m._interval + Interval) Interval loop_count)).next m.history.jobs.length = m._interval + Interval :=
    History.next_add_new none'
  refine ⟨rfl, next.symm, iff_of_false Bool.false_ne_true kept, ?_, ?_⟩
  · intro unlimited
    simp only [job, ite_eq_right_iff, reduceCtorEq, imp_false] at unlimited
    exact not_lt.1 unlimited
  · intro n limited
    simp only [job, Option.ite_none_right_eq_some, Option.some.injEq] at limited
    obtain ⟨pos, rfl⟩ := limited
    rw [History.calls_add, none']
    simp only [Timer.IntervalTimer]
    omega

theorem Refines.add (refines : Refines m listed) (turn : m.phase ≠ .sweep) (pos : 0 < Interval)
    (next : m.AddIntervalTimer S Interval loop_count = some m') :
    Agenda.Step (m.agenda listed) (m'.agenda (insert m.made listed)) ∧ Refines m' (insert m.made listed) := by
  let b := job (m._interval + Interval) Interval loop_count
  let t := Timer.IntervalTimer Interval loop_count m._interval
  let added : TimerManager := { m.put m.made t with made := m.made + 1, history := m.history.add b }
  have fresh : m.made ∉ listed := fun mem => lt_irrefl _ (refines.lt mem)
  have at_new : added.timer m.made = some t := Function.update_self _ _ _
  have at_old : ∀ q, q ≠ m.made → added.timer q = m.timer q := fun q ne => Function.update_of_ne ne _ _
  have outside : m.made ∉ m.Timers := fun mem => fresh ((refines.pointers _).1 mem).1
  have heaped : Heaped added := refines.heaped.outside outside rfl at_old
  obtain ⟨l, pushed, perm, heaped'⟩ := push_spec (S := S) heaped (live_of at_new) outside
  obtain rfl : { added with Timers := l } = m' := Option.some.inj (pushed.symm.trans next)
  have later : m._interval < b.first := lt_add_of_pos_right _ pos
  have limit : b.limit ≠ some 0 := limit_job
  have made : m.made = m.history.jobs.length := refines.made
  have step : Agenda.Step (m.agenda listed) (agenda { added with Timers := l } (insert m.made listed)) := by
    rw [made]
    exact Agenda.Step.add (m.agenda listed) b turn later pos limit
  refine ⟨step, refines.inv.step step, ?_, ?_, ?_, ?_, heaped'⟩
  · show m.made + 1 = (m.history.jobs ++ [b]).length
    rw [List.length_append, made]
    rfl
  · intro q
    rw [Finset.mem_insert]
    by_cases same : q = m.made
    · exact iff_of_true (same ▸ live_of at_new) (.inl same)
    · have old : added.Live q ↔ m.Live q := by rw [Live, at_old q same, Live]
      exact old.trans ((refines.live q).trans (or_iff_right same).symm)
  · intro q t' here
    by_cases same : q = m.made
    · subst same
      obtain rfl := Option.some.inj (at_new.symm.trans here)
      refine ⟨b, Agenda.getElem?_add.2 (.inr ⟨made, rfl⟩), ?_⟩
      have idle : added.phase ≠ .call m.made := fun turn => fresh (refines.inv.calling _ turn)
      have uncalled : called { added with Timers := l } m.made = 0 := if_neg idle
      rw [uncalled]
      have none' : m.history.calls m.made = 0 := by
        rw [made]
        exact Agenda.calls_new refines.inv.sound
      exact keeps_created none' made.symm fun mem => lt_irrefl _ (made ▸ refines.inv.released _ mem)
    · have old : m.timer q = some t' := (at_old q same).symm.trans here
      obtain ⟨b', job', keeps⟩ := refines.keeps q t' old
      have lt : q < m.history.jobs.length := (List.getElem?_eq_some_iff.1 job').1
      exact ⟨b', Agenda.getElem?_add.2 (.inl job'), keeps.interval, keeps.next.trans (History.next_add_of_lt lt).symm,
        keeps.released, keeps.unlimited, keeps.counted⟩
  · intro q
    rw [perm.mem_iff, List.mem_append, List.mem_singleton, Finset.mem_insert]
    by_cases same : q = m.made
    · have idle : added.phase ≠ .call q := fun turn => fresh (same ▸ refines.inv.calling q turn)
      exact iff_of_true (.inr same) ⟨.inl same, idle⟩
    · rw [or_iff_left same, or_iff_right same]
      exact refines.pointers q

theorem Refines.remove (refines : Refines m listed) (turn : m.phase ≠ .sweep) (next : m.RemoveTimer (some p) = some m') :
    Agenda.Step (m.agenda listed) (m'.agenda listed) ∧ Refines m' listed := by
  obtain ⟨t, here, rfl⟩ := Option.map_eq_some_iff.1 next
  have mem : p ∈ listed := (refines.live p).1 (live_of here)
  have known : p < m.history.jobs.length := refines.inv.listed p mem
  let m' : TimerManager := { m.put p t.release with history := m.history.release p }
  have at_p : m'.timer p = some t.release := Function.update_self _ _ _
  have at_q : ∀ q, q ≠ p → m'.timer q = m.timer q := fun q ne => Function.update_of_ne ne _ _
  have live : ∀ q, m'.Live q ↔ m.Live q := by
    intro q
    by_cases same : q = p
    · subst same
      exact iff_of_true (live_of at_p) (live_of here)
    · rw [Live, at_q q same, Live]
  have heaped : Heaped m' := refines.heaped.congr rfl fun q memQ => by
    refine ⟨(live q).2 (refines.heaped.live q memQ), ?_⟩
    by_cases same : q = p
    · subst same
      rw [time_of at_p, time_of here]
      rfl
    · exact congrArg (fun o => (Option.map Timer.time o).getD 0) (at_q q same)
  have step : Agenda.Step (m.agenda listed) (m'.agenda listed) := Agenda.Step.release (m.agenda listed) p turn known
  refine ⟨step, refines.inv.step step, refines.made, fun q => (live q).trans (refines.live q), ?_, refines.pointers, heaped⟩
  intro q t' here'
  by_cases same : q = p
  · subst same
    obtain rfl := Option.some.inj (at_p.symm.trans here')
    obtain ⟨b, job, keeps⟩ := refines.keeps q t here
    exact ⟨b, job, keeps.interval, keeps.next, iff_of_true rfl List.mem_cons_self, keeps.unlimited, keeps.counted⟩
  · obtain ⟨b, job, keeps⟩ := refines.keeps q t' ((at_q q same).symm.trans here')
    exact ⟨b, job, keeps.interval, keeps.next, keeps.released.trans (History.mem_released_release same).symm, keeps.unlimited, keeps.counted⟩

theorem Refines.start (refines : Refines m listed) (turn : m.phase = .rest) (clock : m._create_time + m._interval ≤ _update_time) :
    Agenda.Step (m.agenda listed) ((m.Update _update_time).agenda listed) ∧ Refines (m.Update _update_time) listed := by
  have clock' : m._interval ≤ _update_time - m._create_time := le_sub_iff_add_le'.2 clock
  have step : Agenda.Step (m.agenda listed) ((m.Update _update_time).agenda listed) :=
    Agenda.Step.start (m.agenda listed) (_update_time - m._create_time) turn clock'
  refine ⟨step, refines.inv.step step, refines.made, refines.live, ?_, ?_, ⟨refines.heaped.live, refines.heaped.nodup, refines.heaped.heap⟩⟩
  · intro p t here
    obtain ⟨b, job, keeps⟩ := refines.keeps p t here
    refine ⟨b, job, keeps.interval, keeps.next, keeps.released, keeps.unlimited, ?_⟩
    have uncalled : m.called p = (m.Update _update_time).called p := by
      rw [TimerManager.called, TimerManager.called, turn]
      rfl
    rw [← uncalled]
    exact keeps.counted
  · intro p
    rw [show (m.Update _update_time).Timers = m.Timers from rfl, refines.pointers p, turn]
    exact and_congr_right fun _ => iff_of_true Phase.noConfusion Phase.noConfusion

/-- Between the calls of a sweep the vector holds all timers. -/
theorem Refines.whole (refines : Refines m listed) (turn : m.phase = .sweep) : p ∈ m.Timers ↔ p ∈ listed := by
  rw [refines.pointers p, turn]
  exact and_iff_left Phase.noConfusion

/-- The root is due first. -/
theorem Refines.first (refines : Refines m listed) (turn : m.phase = .sweep) (timers : m.Timers = p :: l) :
    (m.agenda listed).First p := by
  have mem : p ∈ listed := (refines.whole turn).1 (timers ▸ List.mem_cons_self)
  refine ⟨mem, fun q memQ => ?_⟩
  have le := root_first refines.heaped timers q ((refines.whole turn).2 memQ)
  rw [refines.time mem, refines.time memQ] at le
  exact le

/-- The root is taken out of the vector. -/
theorem Refines.popped (refines : Refines m listed) (turn : m.phase = .sweep) (timers : m.Timers = p :: l) : ∃ rest,
    m.pop S = some { m with Timers := rest } ∧ Heaped { m with Timers := rest } ∧ p ∉ rest ∧
      ∀ q, q ∈ rest ↔ q ∈ listed ∧ q ≠ p := by
  obtain ⟨rest, popped, perm, heaped⟩ := pop_spec (S := S) refines.heaped timers
  have nodup := refines.heaped.nodup
  rw [timers, List.nodup_cons] at nodup
  have outside : p ∉ rest := fun mem => nodup.1 (perm.subset mem)
  refine ⟨rest, popped, heaped, outside, fun q => ?_⟩
  rw [← refines.whole turn, timers, List.mem_cons, perm.mem_iff]
  constructor
  · intro mem
    exact ⟨.inr mem, fun same => nodup.1 (same ▸ mem)⟩
  · rintro ⟨rfl | mem, other⟩
    · exact absurd rfl other
    · exact mem

/-- What is left when a timer outside of the vector is deleted. -/
theorem Refines.dropped (refines : Refines m listed) (phase : m.phase = .sweep ∨ m.phase = .call p)
    (step : Agenda.Step (m.agenda listed) (m'.agenda (listed.erase p))) (turn : m'.phase = .sweep) (history : m'.history = m.history)
    (made : m'.made = m.made) (gone : m'.timer p = none) (others : ∀ q, q ≠ p → m'.timer q = m.timer q) (heaped : Heaped m')
    (contents : ∀ q, q ∈ m'.Timers ↔ q ∈ listed ∧ q ≠ p) : Refines m' (listed.erase p) := by
  refine ⟨refines.inv.step step, by rw [made, history, refines.made], ?_, ?_, ?_, heaped⟩
  · intro q
    rw [Finset.mem_erase, Live]
    by_cases same : q = p
    · rw [same, gone]
      exact iff_of_false Bool.false_ne_true fun both => both.1 rfl
    · rw [others q same, and_iff_right same]
      exact refines.live q
  · intro q t here
    by_cases same : q = p
    · rw [same, gone] at here
      cases here
    · obtain ⟨b, job, keeps⟩ := refines.keeps q t ((others q same).symm.trans here)
      have uncalled : m.called q = 0 := by
        apply if_neg
        rcases phase with turn | turn
        · rw [turn]
          exact Phase.noConfusion
        · rw [turn]
          exact fun e => same (Phase.call.inj e).symm
      have uncalled' : m'.called q = 0 := if_neg (by rw [turn]; exact Phase.noConfusion)
      rw [history, uncalled', ← uncalled]
      exact ⟨b, job, keeps⟩
  · intro q
    rw [Finset.mem_erase, contents q, turn]
    constructor
    · exact fun both => ⟨⟨both.2, both.1⟩, Phase.noConfusion⟩
    · exact fun both => ⟨both.1.2, both.1.1⟩

theorem Refines.turn (refines : Refines m listed) (turn : m.phase = .sweep) : ∃ m' listed', m.turn S = some m' ∧
    Agenda.Step (m.agenda listed) (m'.agenda listed') ∧ Refines m' listed' := by
  have idle : ∀ q, m.phase ≠ .call q := fun q => by rw [turn]; exact Phase.noConfusion
  have uncalled : ∀ q, m.called q = 0 := fun q => if_neg (idle q)
  have finish : (∀ q ∈ listed, m._interval < m.history.next q) → Agenda.Step (m.agenda listed) (agenda { m with phase := .rest } listed) ∧
      Refines { m with phase := .rest } listed := by
    intro later
    have step : Agenda.Step (m.agenda listed) (agenda { m with phase := .rest } listed) := Agenda.Step.finish (m.agenda listed) turn later
    refine ⟨step, refines.inv.step step, refines.made, refines.live, ?_, ?_, ⟨refines.heaped.live, refines.heaped.nodup, refines.heaped.heap⟩⟩
    · intro q t here
      have keeps := refines.keeps q t here
      rw [uncalled] at keeps
      exact keeps
    · intro q
      exact (refines.whole turn).trans (and_iff_left Phase.noConfusion).symm
  cases timers : m.Timers with
  | nil =>
    refine ⟨{ m with phase := .rest }, listed, by rw [TimerManager.turn, timers], finish fun q mem => ?_⟩
    have inside := (refines.whole turn).2 mem
    rw [timers] at inside
    cases inside
  | cons p l =>
    have mem : p ∈ listed := (refines.whole turn).1 (timers ▸ List.mem_cons_self)
    obtain ⟨t, b, here, job, keeps⟩ := refines.timer mem
    have first := refines.first turn timers
    obtain ⟨rest, popped, heaped, outside, contents⟩ := refines.popped (S := S) turn timers
    by_cases released : t.bRelease = true
    · -- deleted without a call
      have listed' : p ∈ m.history.released := keeps.released.1 released
      let m' : TimerManager := delete { m with Timers := rest } p
      have result : m.turn S = some m' := by
        simp only [TimerManager.turn, timers, here, Option.bind_some, Timer.IsRelease, released, Bool.or_true, if_true, popped]
        rfl
      have step : Agenda.Step (m.agenda listed) (m'.agenda (listed.erase p)) := Agenda.Step.drop (m.agenda listed) p turn first listed'
      have others : ∀ q, q ≠ p → m'.timer q = m.timer q := fun q ne => Function.update_of_ne ne _ _
      exact ⟨m', listed.erase p, result, step, refines.dropped (.inl turn) step turn rfl rfl (Function.update_self _ _ _) others
        (heaped.outside outside rfl others) contents⟩
    by_cases due : t._next ≤ m._interval
    · -- put forward and called
      let m' : TimerManager := { put { m with Timers := rest } p t.Reset with phase := .call p, history := m.history.call p t._next }
      have passed : t.Passed m._interval = true := decide_eq_true due
      have result : m.turn S = some m' := by
        simp only [TimerManager.turn, timers, here, Option.bind_some, passed, Bool.true_or, if_true, popped, Timer.IsRelease,
          if_neg released, update]
        rfl
      have kept : p ∉ m.history.released := fun mem => released (keeps.released.2 mem)
      have step : Agenda.Step (m.agenda listed) (m'.agenda listed) := by
        have call := Agenda.Step.call (m.agenda listed) p turn first kept (keeps.next.symm.trans_le due)
        rw [show (m.agenda listed).next p = t._next from keeps.next.symm] at call
        exact call
      have at_p : m'.timer p = some t.Reset := Function.update_self _ _ _
      have others : ∀ q, q ≠ p → m'.timer q = m.timer q := fun q ne => Function.update_of_ne ne _ _
      have calls : ∀ q, m'.history.calls q = if q = p then m.history.calls p + 1 else m.history.calls q := fun q => History.calls_call
      refine ⟨m', listed, result, step, refines.inv.step step, refines.made, ?_, ?_, ?_, heaped.outside outside rfl others⟩
      · intro q
        by_cases same : q = p
        · subst same
          exact iff_of_true (live_of at_p) mem
        · rw [Live, others q same]
          exact refines.live q
      · intro q t' here'
        by_cases same : q = p
        · subst same
          obtain rfl := Option.some.inj (at_p.symm.trans here')
          have now : m'.called q = 1 := if_pos rfl
          have next : m'.history.next q = m.history.next q + b.interval := History.next_call_same job
          refine ⟨b, job, keeps.interval, ?_, keeps.released, keeps.unlimited, fun n limited => ?_⟩
          · rw [next, ← keeps.next, ← keeps.interval]
            rfl
          · have counted := keeps.counted n limited
            rw [uncalled] at counted
            rw [now, calls, if_pos rfl]
            show t._loop_count = _
            push_cast
            omega
        · obtain ⟨b', job', keeps'⟩ := refines.keeps q t' ((others q same).symm.trans here')
          have now : m'.called q = 0 := if_neg fun e => same (Phase.call.inj e).symm
          refine ⟨b', job', keeps'.interval, ?_, keeps'.released, keeps'.unlimited, fun n limited => ?_⟩
          · rw [keeps'.next]
            exact (History.next_call_of_ne same).symm
          · have counted := keeps'.counted n limited
            rw [uncalled] at counted
            rw [now, calls, if_neg same]
            exact counted
      · intro q
        show q ∈ rest ↔ _
        rw [contents q]
        exact and_congr_right fun _ => not_congr ⟨fun e => congrArg Phase.call e.symm, fun e => (Phase.call.inj e).symm⟩
    · -- nothing is due
      refine ⟨{ m with phase := .rest }, listed, ?_, finish fun q memQ => ?_⟩
      · have early : t.Passed m._interval = false := decide_eq_false due
        simp only [TimerManager.turn, timers, here, Option.bind_some, early, Bool.false_or, Timer.IsRelease, if_neg released]
      · have le : m.history.next p ≤ m.history.next q := first.2 q memQ
        rw [← keeps.next] at le
        exact (not_le.1 due).trans_le le

theorem Refines.back (refines : Refines m listed) (turn : m.phase = .call p) : ∃ m' listed', m.back S p = some m' ∧
    Agenda.Step (m.agenda listed) (m'.agenda listed') ∧ Refines m' listed' := by
  have mem : p ∈ listed := refines.inv.calling p turn
  have outside : p ∉ m.Timers := fun inside => ((refines.pointers p).1 inside).2 turn
  have contents : ∀ q, q ∈ m.Timers ↔ q ∈ listed ∧ q ≠ p := fun q => by
    rw [refines.pointers q, turn]
    exact and_congr_right fun _ => not_congr ⟨fun e => (Phase.call.inj e).symm, fun e => congrArg Phase.call e.symm⟩
  obtain ⟨t, b, here, job, keeps⟩ := refines.timer mem
  have one : m.called p = 1 := if_pos turn
  let t' : Timer := { t with _loop_count := t._loop_count - 1 }
  let m₁ : TimerManager := { m.put p t' with phase := .sweep }
  have at_p : m₁.timer p = some t' := Function.update_self _ _ _
  have others : ∀ q, q ≠ p → m₁.timer q = m.timer q := fun q ne => Function.update_of_ne ne _ _
  have exhausted : (m.agenda listed).Exhausted p ↔ t'._loop_count = 0 := by
    rw [Agenda.exhausted_iff (show (m.agenda listed).jobs[p]? = some b from job)]
    cases limited : b.limit with
    | none =>
      have unlimited := keeps.unlimited limited
      refine iff_of_false (fun e => by cases e) ?_
      show t._loop_count - 1 ≠ 0
      omega
    | some n =>
      have counted := keeps.counted n limited
      rw [one] at counted
      rw [Option.some.injEq]
      show n = m.history.calls p ↔ t._loop_count - 1 = 0
      omega
  by_cases zero : t'._loop_count = 0
  · let m' : TimerManager := m₁.delete p
    have result : m.back S p = some m' := by
      rw [TimerManager.back, here, Option.bind_some]
      exact if_pos zero
    have step : Agenda.Step (m.agenda listed) (m'.agenda (listed.erase p)) :=
      Agenda.Step.last (m.agenda listed) p turn (exhausted.2 zero)
    have others' : ∀ q, q ≠ p → m'.timer q = m.timer q := fun q ne => (Function.update_of_ne ne _ _).trans (others q ne)
    exact ⟨m', listed.erase p, result, step, refines.dropped (.inr turn) step rfl rfl rfl (Function.update_self _ _ _) others'
      (refines.heaped.outside outside rfl others') contents⟩
  · obtain ⟨l, pushed, perm, heaped⟩ := push_spec (S := S) (refines.heaped.outside outside rfl others : Heaped m₁) (live_of at_p) outside
    let m' : TimerManager := { m₁ with Timers := l }
    have result : m.back S p = some m' := by
      rw [TimerManager.back, here, Option.bind_some]
      exact (if_neg zero).trans pushed
    have step : Agenda.Step (m.agenda listed) (m'.agenda listed) :=
      Agenda.Step.back (m.agenda listed) p turn fun last => zero (exhausted.1 last)
    refine ⟨m', listed, result, step, refines.inv.step step, refines.made, ?_, ?_, ?_, heaped⟩
    · intro q
      by_cases same : q = p
      · subst same
        exact iff_of_true (live_of at_p) mem
      · rw [Live, others q same]
        exact refines.live q
    · intro q t'' here'
      have uncalled : m'.called q = 0 := if_neg Phase.noConfusion
      by_cases same : q = p
      · subst same
        obtain rfl := Option.some.inj (at_p.symm.trans here')
        refine ⟨b, job, keeps.interval, keeps.next, keeps.released, fun unlimited => ?_, fun n limited => ?_⟩
        · have before := keeps.unlimited unlimited
          show t._loop_count - 1 ≤ 0
          omega
        · have counted := keeps.counted n limited
          rw [one] at counted
          rw [uncalled]
          show t._loop_count - 1 = n - m.history.calls q + 0
          omega
      · obtain ⟨b', job', keeps'⟩ := refines.keeps q t'' ((others q same).symm.trans here')
        have uncalled' : m.called q = 0 := if_neg fun e => same (Phase.call.inj (turn.symm.trans e)).symm
        rw [uncalled, ← uncalled']
        exact ⟨b', job', keeps'⟩
    · intro q
      show q ∈ l ↔ _
      rw [perm.mem_iff, List.mem_append, List.mem_singleton]
      show q ∈ m.Timers ∨ q = p ↔ _
      rw [contents q]
      constructor
      · rintro (⟨inside, -⟩ | rfl)
        · exact ⟨inside, Phase.noConfusion⟩
        · exact ⟨mem, Phase.noConfusion⟩
      · rintro ⟨inside, -⟩
        by_cases same : q = p
        · exact .inr same
        · exact .inl ⟨inside, same⟩

/-- **One step**: what the manager does is a step of the agenda. -/
theorem Refines.step {act : Act} (refines : Refines m listed) (ok : Ok m act) (next : Manager.step S m act = some m') :
    ∃ listed', Agenda.Step (m.agenda listed) (m'.agenda listed') ∧ Refines m' listed' := by
  cases act with
  | AddIntervalTimer Interval loop_count =>
    simp only [Manager.step] at next
    split_ifs at next with turn
    exact ⟨_, refines.add turn ok next⟩
  | RemoveTimer tHandle =>
    simp only [Manager.step] at next
    split_ifs at next with turn
    cases tHandle with
    | none =>
      obtain rfl := Option.some.inj next
      exact ⟨listed, .skip _ turn, refines⟩
    | some p => exact ⟨listed, refines.remove turn next⟩
  | Update _update_time =>
    simp only [Manager.step] at next
    split_ifs at next with turn
    obtain rfl := Option.some.inj next
    exact ⟨listed, refines.start turn ok⟩
  | turn =>
    simp only [Manager.step] at next
    split_ifs at next with turn
    obtain ⟨u, listed', result, step⟩ := refines.turn (S := S) turn
    obtain rfl := Option.some.inj (result.symm.trans next)
    exact ⟨listed', step⟩
  | back =>
    cases turn : m.phase with
    | call p =>
      simp only [Manager.step, turn] at next
      obtain ⟨u, listed', result, step⟩ := refines.back (S := S) turn
      obtain rfl := Option.some.inj (result.symm.trans next)
      exact ⟨listed', step⟩
    | rest | sweep =>
      simp only [Manager.step, turn] at next
      cases next

end Refinement

/-- What holds in every state of a run. The schedule: each timer is called for its due points one
after the other, for none of them before it has come, for no more of them than its `loop_count` says, and not after its
release; each `Update` calls in the order of the due points and comes to an end; and outside of `Update` a timer that is
not released has been called for all its due points up to now. -/
structure Exact (S : StdHeap) (m : TimerManager) : Prop extends
    Scheduled (Next (step S) Ok) TimerManager.phase TimerManager.history TimerManager._interval m where
  /-- Outside of `Update` all timers in the vector lie in the future. -/
  future : m.phase = .rest → ∀ p ∈ m.Timers, ∃ t, m.timer p = some t ∧ m._interval < t._next
  /-- A timer that has been called `loop_count` times is deleted. -/
  deleted : ∀ p b n, m.history.jobs[p]? = some b → b.limit = some n → m.history.calls p = n → m.phase ≠ .call p → m.timer p = none
  /-- The loop goes on until it is left. -/
  goes : (m.phase = .sweep → (step S m .turn).isSome) ∧ ∀ p, m.phase = .call p → (step S m .back).isSome

theorem Refines.exact {S : StdHeap} {m : TimerManager} {listed : Finset Nat} (refines : Refines m listed) : Exact S m where
  toScheduled := by
    refine scheduled_of_simulation (R := Refines) (fun _ _ refines => refines.inv) ?_ refines
    rintro m listed m' refines ⟨act, ok, next⟩
    exact refines.step ok next
  future turn p mem := by
    have on := ((refines.pointers p).1 mem).1
    obtain ⟨t, b, here, -, keeps⟩ := refines.timer on
    exact ⟨t, here, (refines.inv.rest turn p on).trans_eq keeps.next.symm⟩
  deleted p b n job limited calls idle := by
    have exhausted : (m.agenda listed).Exhausted p := ⟨b, job, limited.trans (congrArg some calls.symm)⟩
    have gone : ¬ m.Live p := fun live => refines.inv.more p ((refines.live p).1 live) idle exhausted
    exact Option.isNone_iff_eq_none.1 (by simpa [Live] using gone)
  goes := by
    constructor
    · intro turn
      obtain ⟨u, listed', result, -⟩ := refines.turn (S := S) turn
      simp [Manager.step, turn, result]
    · intro p turn
      obtain ⟨u, listed', result, -⟩ := refines.back (S := S) turn
      simp [Manager.step, turn, result]

/-- **The schedule**: every run of the manager keeps to it, whatever `std::push_heap` and `std::pop_heap` do with timers
that are due at the same time. -/
theorem timers_scheduled (S : StdHeap) (_create_time : ℚ) {as : List Act} {m : TimerManager}
    (run : Runs (step S) Ok (new _create_time) as m) : Exact S m := by
  obtain ⟨listed, refines⟩ : ∃ listed, Refines m listed := by
    apply run.invariant (fun m => ∃ listed, Refines m listed) ⟨∅, refines_new _create_time⟩
    rintro m act m' ⟨listed, refines⟩ ok next
    obtain ⟨listed', -, refines'⟩ := refines.step ok next
    exact ⟨listed', refines'⟩
  exact refines.exact

/-- Timer 0 comes every two seconds, timer 1 every three seconds and twice in all; the first call of timer 1 adds timer 2
and releases timer 0. -/
def twoTimers : List Act :=
  [.AddIntervalTimer 2 (-1), .AddIntervalTimer 3 2, .Update 17, .turn, .back, .turn, .AddIntervalTimer 1 (-1), .RemoveTimer (some 0),
    .back, .turn, .turn, .back, .turn]

theorem timers_scheduled_two : ∃ m, Runs (step (.ofSort .insertion)) Ok (new 10) twoTimers m ∧
    m.history.fired = [(0, 2), (1, 3), (1, 6)] ∧ m.Timers = [2] ∧ Exact (.ofSort .insertion) m := by
  obtain ⟨m, run, fired, left⟩ : ∃ m, Runs (step (.ofSort .insertion)) Ok (new 10) twoTimers m ∧
      m.history.fired = [(0, 2), (1, 3), (1, 6)] ∧ m.Timers = [2] := by
    apply Runs.exists_of_decide
    decide +kernel
  exact ⟨m, run, fired, left, timers_scheduled _ 10 run⟩

end GameServer.Timers.Manager

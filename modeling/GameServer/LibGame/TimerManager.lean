import GameServer.Lib.Agenda
import GameServer.Lib.Run
import GameServer.LibGame.MinHeap
import Mathlib.Data.Rat.Floor

/-!
# The timer manager of libgame

`TimerManager` with its `MinHeap`. `Update` calls a timer that is due while it is still the root of the heap, then puts
its time forward in place, takes the root out and inserts the timer again. Callbacks add and release timers, and what they
add goes into the heap with the called timer at the root.

As for the manager of xlib, `turn` is a pass of the loop up to the call and `back` what follows it, a pointer is the
number of its timer's creation, and `none` is the use of a pointer to a deleted timer. Arithmetic is exact. The clock
`GetFrequencyTime` is read by the constructor of a timer and by `Update`; its readings come with the actions.
-/

namespace GameServer.LibGame.Timers

open GameServer.Lib

structure Timer where
  _relativeTime : ℚ
  m_fInterval : ℚ
  _bRelease : Bool
deriving DecidableEq

namespace Timer

/-- `IntervalTimer`. -/
def IntervalTimer (fInterval fCurrTime fReferTime : ℚ) : Timer := ⟨fCurrTime - fReferTime + fInterval, fInterval, false⟩

def getRelativeTime (t : Timer) : ℚ := t._relativeTime

def release (t : Timer) : Timer := { t with _bRelease := true }

def isRelease (t : Timer) : Bool := t._bRelease

/-- `IntervalTimer::reset`. -/
def reset (t : Timer) : Timer := { t with _relativeTime := t._relativeTime + t.m_fInterval }

end Timer

structure TimerManager where
  _tmReferTime : ℚ
  _minHeap : MinHeap
  /-- The timers behind the pointers. -/
  timer : Nat → Option Timer
  made : Nat
  /-- The last reading of the clock. -/
  clock : ℚ
  /-- The variable of the last `Update`. -/
  fInterval : ℚ
  phase : Lib.Phase
  history : History ℚ

namespace TimerManager

/-- The constructor reads the clock at `now`. -/
def new (now : ℚ) (memory : Nat → Nat) : TimerManager :=
  ⟨now, .new DefaultSize memory, fun _ => none, 0, now, 0, .rest, ⟨[], [], [], []⟩⟩

def getRelativeTime (m : TimerManager) (p : Nat) : ℚ := ((m.timer p).map Timer.getRelativeTime).getD 0

def Live (m : TimerManager) (p : Nat) : Prop := (m.timer p).isSome = true

instance decidableLive (m : TimerManager) : DecidablePred m.Live := fun _ => inferInstanceAs (Decidable (_ = true))

def put (m : TimerManager) (p : Nat) (t : Timer) : TimerManager := { m with timer := Function.update m.timer p (some t) }

def delete (m : TimerManager) (p : Nat) : TimerManager := { m with timer := Function.update m.timer p none }

/-- `_minHeap.Insert`, whose result is checked with `CHECKERROR` or not at all. -/
def insert (m : TimerManager) (p : Nat) : Option TimerManager :=
  if ∀ q ∈ p :: m._minHeap.elements, m.Live q then some { m with _minHeap := (m._minHeap.Insert m.getRelativeTime p).1 } else none

/-- `_minHeap.RemoveMin`. -/
def removeMin (m : TimerManager) : Option TimerManager :=
  if ∀ q ∈ m._minHeap.elements, m.Live q then some { m with _minHeap := (m._minHeap.RemoveMin m.getRelativeTime).1 } else none

def AddIntervalTimer (m : TimerManager) (fInterval fCurrTime : ℚ) : Option TimerManager :=
  let t := Timer.IntervalTimer fInterval fCurrTime m._tmReferTime
  let added := m.put m.made t
  { added with made := m.made + 1, clock := fCurrTime, history := m.history.add ⟨t._relativeTime, fInterval, none⟩ }.insert m.made

def RemoveTimer (m : TimerManager) : (hTimer : Option Nat) → Option TimerManager
  | none => some m
  | some p => (m.timer p).map fun t => { m.put p t.release with history := m.history.release p }

/-- `Update` up to its loop; its argument is overwritten. -/
def Update (m : TimerManager) (fCurrTime : ℚ) : TimerManager :=
  { m with clock := fCurrTime, fInterval := fCurrTime - m._tmReferTime, phase := .sweep, history := m.history.start }

/-- A pass of the loop up to the call of `onTimer`. -/
def turn (m : TimerManager) : Option TimerManager :=
  match m._minHeap.FindMin with
  | none => some { m with phase := .rest }
  | some pTimer => (m.timer pTimer).bind fun t =>
    if t.isRelease then m.removeMin.map fun m => m.delete pTimer
    else if m.fInterval ≥ t._relativeTime then
      some { m with phase := .call pTimer, history := m.history.call pTimer t._relativeTime }
    else some { m with phase := .rest }

/-- The pass after `onTimer`. -/
def back (m : TimerManager) (pTimer : Nat) : Option TimerManager :=
  (m.timer pTimer).bind fun t =>
    (m.put pTimer t.reset).removeMin.bind fun m => { m with phase := .sweep }.insert pTimer

end TimerManager

open TimerManager

inductive Act where
  | AddIntervalTimer (fInterval fCurrTime : ℚ)
  | RemoveTimer (hTimer : Option Nat)
  | Update (fCurrTime : ℚ)
  | turn
  | back
deriving DecidableEq

/-- The program calls in from outside of `Update` and from callbacks, and `Update` from outside only. -/
def step (m : TimerManager) : Act → Option TimerManager
  | .AddIntervalTimer fInterval fCurrTime => if m.phase = .sweep then none else m.AddIntervalTimer fInterval fCurrTime
  | .RemoveTimer hTimer => if m.phase = .sweep then none else m.RemoveTimer hTimer
  | .Update fCurrTime => if m.phase = .rest then some (m.Update fCurrTime) else none
  | .turn => if m.phase = .sweep then m.turn else none
  | .back => match m.phase with
    | .call pTimer => m.back pTimer
    | _ => none

/-- Intervals are positive, the clock does not go back, and a timer is added where there are fewer than `DefaultSize`. -/
def Ok (m : TimerManager) : Act → Prop
  | .AddIntervalTimer fInterval fCurrTime => 0 < fInterval ∧ m.clock ≤ fCurrTime ∧ m._minHeap.currentSize < DefaultSize
  | .Update fCurrTime => m.clock ≤ fCurrTime
  | .RemoveTimer _ | .turn | .back => True

instance decidableOk (m : TimerManager) : (act : Act) → Decidable (Ok m act)
  | .AddIntervalTimer fInterval fCurrTime => inferInstanceAs (Decidable (0 < fInterval ∧ m.clock ≤ fCurrTime ∧ _))
  | .Update fCurrTime => inferInstanceAs (Decidable (m.clock ≤ fCurrTime))
  | .RemoveTimer _ | .turn | .back => .isTrue trivial

/-- What a timer's fields say of its job. During the call the time is not yet put forward: `pending`. -/
structure Keeps (t : Timer) (b : Job ℚ) (s : History ℚ) (p : Nat) (pending : Prop) [Decidable pending] : Prop where
  interval : t.m_fInterval = b.interval
  next : t._relativeTime + (if pending then b.interval else 0) = s.next p
  released : t._bRelease = true ↔ p ∈ s.released
  unlimited : b.limit = none

/-- The manager as an agenda on which the timers `listed` are. -/
def TimerManager.agenda (m : TimerManager) (listed : Finset Nat) : Agenda ℚ := ⟨m.history, listed, m.fInterval, m.phase⟩

/-- The timers that exist are on the agenda and, each once, in the heap, which is in order; the root is the timer that is
being called. -/
structure Refines (m : TimerManager) (listed : Finset Nat) : Prop where
  inv : (m.agenda listed).Inv
  made : m.made = m.history.jobs.length
  live : ∀ p, m.Live p ↔ p ∈ listed
  keeps : ∀ p t, m.timer p = some t → ∃ b, m.history.jobs[p]? = some b ∧ Keeps t b m.history p (m.phase = .call p)
  clock : m.fInterval ≤ m.clock - m._tmReferTime
  capacity : m._minHeap.maxHeapSize = DefaultSize
  size : m._minHeap.currentSize ≤ DefaultSize
  ordered : m._minHeap.Ordered m.getRelativeTime
  nodup : m._minHeap.elements.Nodup
  pointers : ∀ p, p ∈ m._minHeap.elements ↔ p ∈ listed
  root : ∀ p, m.phase = .call p → m._minHeap.FindMin = some p ∧ m.getRelativeTime p ≤ m.fInterval

section Refinement

variable {m m' : TimerManager} {listed : Finset Nat} {p q : Nat} {t : Timer} {b : Job ℚ} {fInterval fCurrTime now : ℚ} {memory : Nat → Nat}

theorem time_of (here : m.timer p = some t) : m.getRelativeTime p = t._relativeTime := by
  rw [TimerManager.getRelativeTime, here]
  rfl

theorem live_of (here : m.timer p = some t) : m.Live p := by
  rw [Live, here]
  rfl

theorem time_congr (same : m'.timer p = m.timer p) : m'.getRelativeTime p = m.getRelativeTime p :=
  congrArg (fun o => (Option.map Timer.getRelativeTime o).getD 0) same

theorem refines_new (now : ℚ) (memory : Nat → Nat) : Refines (new now memory) ∅ where
  inv := .empty
  made := rfl
  live p := by simp [Live, new]
  keeps p t here := by cases here
  clock := (sub_self now).ge
  capacity := by simp [new, MinHeap.new]
  size := Nat.zero_le _
  ordered i _ lt := absurd lt (Nat.not_lt_zero i)
  nodup := .nil
  pointers p := by simp [new, MinHeap.new, MinHeap.elements, Heap.elements]
  root := nofun

theorem Refines.timer (refines : Refines m listed) (mem : p ∈ listed) : ∃ t b, m.timer p = some t ∧
    m.history.jobs[p]? = some b ∧ Keeps t b m.history p (m.phase = .call p) := by
  obtain ⟨t, here⟩ := Option.isSome_iff_exists.1 ((refines.live p).2 mem)
  obtain ⟨b, job, keeps⟩ := refines.keeps p t here
  exact ⟨t, b, here, job, keeps⟩

theorem Refines.readable (refines : Refines m listed) : ∀ q ∈ m._minHeap.elements, m.Live q := fun q mem =>
  (refines.live q).2 ((refines.pointers q).1 mem)

/-- In a turn the times are the next due points. -/
theorem Keeps.next_of_not {pending : Prop} [Decidable pending] {s : History ℚ} (keeps : Keeps t b s p pending) (not : ¬ pending) :
    t._relativeTime = s.next p := by
  have next := keeps.next
  rwa [if_neg not, add_zero] at next

theorem insert_spec (live : ∀ q ∈ p :: m._minHeap.elements, m.Live q) (room : m._minHeap.currentSize ≠ m._minHeap.maxHeapSize)
    (ordered : m._minHeap.Ordered m.getRelativeTime) (nodup : m._minHeap.elements.Nodup) (new : p ∉ m._minHeap.elements) : ∃ h : MinHeap,
      m.insert p = some { m with _minHeap := h } ∧ h.maxHeapSize = m._minHeap.maxHeapSize ∧
      h.currentSize = m._minHeap.currentSize + 1 ∧ h.Ordered m.getRelativeTime ∧ h.elements.Nodup ∧
      (∀ q, q ∈ h.elements ↔ q ∈ m._minHeap.elements ∨ q = p) ∧
      ∀ r, m._minHeap.FindMin = some r → m.getRelativeTime r ≤ m.getRelativeTime p → h.FindMin = some r := by
  have perm := MinHeap.insert_elements m.getRelativeTime p room
  have eq := MinHeap.insert_eq m.getRelativeTime p room
  have whole : (m._minHeap.elements ++ [p]).Nodup := nodup.append (List.nodup_singleton p) (List.disjoint_singleton.2 new)
  refine ⟨_, if_pos live, ?_, ?_, MinHeap.insert_ordered room ordered, perm.nodup_iff.2 whole, fun q => ?_,
    fun r found least => MinHeap.insert_root room found least⟩
  · rw [eq]
  · rw [eq]
  · rw [perm.mem_iff, List.mem_append, List.mem_singleton]

/-- `RemoveMin` takes the root out of the heap, also when the root's time is no longer the smallest. -/
theorem removeMin_spec {time : Nat → ℚ} (live : ∀ q ∈ m._minHeap.elements, m.Live q) (found : m._minHeap.FindMin = some p)
    (ordered : m._minHeap.Ordered time) (same : ∀ q, q ≠ p → m.getRelativeTime q = time q) (nodup : m._minHeap.elements.Nodup) :
    ∃ h : MinHeap, m.removeMin = some { m with _minHeap := h } ∧ h.maxHeapSize = m._minHeap.maxHeapSize ∧
      h.currentSize + 1 = m._minHeap.currentSize ∧ h.Ordered m.getRelativeTime ∧ h.elements.Nodup ∧
      ∀ q, q ∈ h.elements ↔ q ∈ m._minHeap.elements ∧ q ≠ p := by
  have perm := MinHeap.removeMin_elements m.getRelativeTime found
  obtain ⟨pos, root⟩ := MinHeap.findMin_eq_some.1 found
  have eq := MinHeap.removeMin_eq m.getRelativeTime pos
  have whole := perm.nodup_iff.2 nodup
  have others : ∀ i, 0 < i → i < m._minHeap.currentSize → m.getRelativeTime (m._minHeap.heap i) = time (m._minHeap.heap i) := by
    intro i posI lt
    apply same
    rw [← root]
    intro twice
    have inj := List.inj_on_of_nodup_map nodup (List.mem_range.2 lt) (List.mem_range.2 pos) twice
    exact posI.ne' inj
  refine ⟨_, if_pos live, ?_, ?_, MinHeap.removeMin_ordered ordered pos others, (List.nodup_cons.1 whole).2, fun q => ?_⟩
  · rw [eq]
  · rw [eq]
    exact Nat.sub_add_cancel pos
  · rw [← perm.mem_iff, List.mem_cons]
    constructor
    · intro mem
      exact ⟨.inr mem, fun e => (List.nodup_cons.1 whole).1 (e ▸ mem)⟩
    · rintro ⟨rfl | mem, other⟩
      · exact absurd rfl other
      · exact mem

theorem Refines.add (refines : Refines m listed) (turn : m.phase ≠ .sweep) (pos : 0 < fInterval) (reading : m.clock ≤ fCurrTime)
    (fewer : m._minHeap.currentSize < DefaultSize) (next : m.AddIntervalTimer fInterval fCurrTime = some m') :
    Agenda.Step (m.agenda listed) (m'.agenda (insert m.made listed)) ∧ Refines m' (insert m.made listed) := by
  let t := Timer.IntervalTimer fInterval fCurrTime m._tmReferTime
  let b : Job ℚ := ⟨t._relativeTime, fInterval, none⟩
  let added : TimerManager := { m.put m.made t with made := m.made + 1, clock := fCurrTime, history := m.history.add b }
  have made : m.made = m.history.jobs.length := refines.made
  have known : ∀ q ∈ listed, q < m.made := fun q mem => by
    rw [made]
    exact refines.inv.listed q mem
  have fresh : m.made ∉ listed := fun mem => lt_irrefl _ (known _ mem)
  have at_new : added.timer m.made = some t := Function.update_self _ _ _
  have at_old : ∀ q, q ≠ m.made → added.timer q = m.timer q := fun q ne => Function.update_of_ne ne _ _
  have old : ∀ q ∈ m._minHeap.elements, q ≠ m.made := fun q mem => (known q ((refines.pointers q).1 mem)).ne
  have live : ∀ q ∈ m.made :: added._minHeap.elements, added.Live q := by
    intro q mem
    rcases List.mem_cons.1 mem with rfl | mem
    · exact live_of at_new
    · rw [Live, at_old q (old q mem)]
      exact refines.readable q mem
  have ordered : added._minHeap.Ordered added.getRelativeTime := refines.ordered.congr fun q mem => time_congr (at_old q (old q mem))
  have room : added._minHeap.currentSize ≠ added._minHeap.maxHeapSize := by
    show m._minHeap.currentSize ≠ m._minHeap.maxHeapSize
    rw [refines.capacity]
    exact fewer.ne
  obtain ⟨h, inserted, capacity, size, ordered', nodup, contents, root⟩ :=
    insert_spec live room ordered refines.nodup fun mem => fresh ((refines.pointers _).1 mem)
  obtain rfl : { added with _minHeap := h } = m' := Option.some.inj (inserted.symm.trans next)
  have later : m.fInterval < b.first := by
    have clock := refines.clock
    show _ < fCurrTime - m._tmReferTime + fInterval
    linarith
  have step : Agenda.Step (m.agenda listed) (agenda { added with _minHeap := h } (insert m.made listed)) := by
    rw [made]
    have unlimited : b.limit ≠ some 0 := fun zero => by cases zero
    exact Agenda.Step.add (m.agenda listed) b turn later pos unlimited
  refine ⟨step, refines.inv.step step, ?_, ?_, ?_, ?_, ?_, ?_, ordered', nodup, ?_, ?_⟩
  · show m.made + 1 = (m.history.jobs ++ [b]).length
    rw [List.length_append, made]
    rfl
  · intro q
    rw [Finset.mem_insert]
    by_cases same : q = m.made
    · exact iff_of_true (same ▸ live_of at_new) (.inl same)
    · have kept : added.Live q ↔ m.Live q := by rw [Live, at_old q same, Live]
      exact kept.trans ((refines.live q).trans (or_iff_right same).symm)
  · intro q t' here
    by_cases same : q = m.made
    · subst same
      obtain rfl := Option.some.inj (at_new.symm.trans here)
      have idle : ¬ added.phase = .call m.made := fun turn => fresh (refines.inv.calling _ turn)
      have none' : m.history.calls m.history.jobs.length = 0 := Agenda.calls_new refines.inv.sound
      have first : (m.history.add b).next m.made = b.first := by
        rw [made]
        exact History.next_add_new none'
      refine ⟨b, Agenda.getElem?_add.2 (.inr ⟨made, rfl⟩), rfl, ?_, ?_, rfl⟩
      · show t._relativeTime + (if added.phase = .call m.made then b.interval else 0) = (m.history.add b).next m.made
        rw [if_neg idle, first, add_zero]
      · exact iff_of_false Bool.false_ne_true fun mem => lt_irrefl _ (made ▸ refines.inv.released _ mem)
    · obtain ⟨b', job', keeps⟩ := refines.keeps q t' ((at_old q same).symm.trans here)
      have lt : q < m.history.jobs.length := (List.getElem?_eq_some_iff.1 job').1
      exact ⟨b', Agenda.getElem?_add.2 (.inl job'), keeps.interval, keeps.next.trans (History.next_add_of_lt lt).symm,
        keeps.released, keeps.unlimited⟩
  · exact refines.clock.trans (sub_le_sub_right reading _)
  · exact capacity.trans refines.capacity
  · show h.currentSize ≤ DefaultSize
    rw [size]
    exact fewer
  · intro q
    rw [contents q, Finset.mem_insert, or_comm]
    exact or_congr_right (refines.pointers q)
  · intro p phase
    obtain ⟨found, due⟩ := refines.root p phase
    have time : added.getRelativeTime p = m.getRelativeTime p := time_congr (at_old p (old p (MinHeap.mem_of_findMin found)))
    have least : added.getRelativeTime p ≤ added.getRelativeTime m.made := by
      rw [time, time_of at_new]
      exact due.trans later.le
    exact ⟨root p found least, time.trans_le due⟩

theorem Refines.remove (refines : Refines m listed) (turn : m.phase ≠ .sweep) (next : m.RemoveTimer (some p) = some m') :
    Agenda.Step (m.agenda listed) (m'.agenda listed) ∧ Refines m' listed := by
  obtain ⟨t, here, rfl⟩ := Option.map_eq_some_iff.1 next
  have mem : p ∈ listed := (refines.live p).1 (live_of here)
  let m' : TimerManager := { m.put p t.release with history := m.history.release p }
  have at_p : m'.timer p = some t.release := Function.update_self _ _ _
  have at_q : ∀ q, q ≠ p → m'.timer q = m.timer q := fun q ne => Function.update_of_ne ne _ _
  have time : ∀ q, m'.getRelativeTime q = m.getRelativeTime q := by
    intro q
    by_cases same : q = p
    · subst same
      rw [time_of at_p, time_of here]
      rfl
    · exact time_congr (at_q q same)
  have step : Agenda.Step (m.agenda listed) (m'.agenda listed) :=
    Agenda.Step.release (m.agenda listed) p turn (refines.inv.listed p mem)
  refine ⟨step, refines.inv.step step, refines.made, ?_, ?_, refines.clock, refines.capacity, refines.size,
    refines.ordered.congr fun q _ => time q, refines.nodup, refines.pointers, ?_⟩
  · intro q
    by_cases same : q = p
    · subst same
      exact iff_of_true (live_of at_p) mem
    · rw [Live, at_q q same]
      exact refines.live q
  · intro q t' here'
    by_cases same : q = p
    · subst same
      obtain rfl := Option.some.inj (at_p.symm.trans here')
      obtain ⟨b, job, keeps⟩ := refines.keeps q t here
      exact ⟨b, job, keeps.interval, keeps.next, iff_of_true rfl List.mem_cons_self, keeps.unlimited⟩
    · obtain ⟨b, job, keeps⟩ := refines.keeps q t' ((at_q q same).symm.trans here')
      exact ⟨b, job, keeps.interval, keeps.next, keeps.released.trans (History.mem_released_release same).symm, keeps.unlimited⟩
  · intro q phase
    obtain ⟨found, due⟩ := refines.root q phase
    exact ⟨found, (time q).trans_le due⟩

/-- Beginning and ending a sweep moves no timer. -/
theorem Refines.turned (refines : Refines m listed) (idle : ∀ p, m.phase ≠ .call p) (same : m'.timer = m.timer)
    (heap : m'._minHeap = m._minHeap) (made : m'.made = m.made) (jobs : m'.history.jobs = m.history.jobs)
    (fired : m'.history.fired = m.history.fired) (released : m'.history.released = m.history.released)
    (clock : m'.fInterval ≤ m'.clock - m'._tmReferTime) (idle' : ∀ p, m'.phase ≠ .call p)
    (step : Agenda.Step (m.agenda listed) (m'.agenda listed)) : Refines m' listed := by
  have time : m'.getRelativeTime = m.getRelativeTime := funext fun p => time_congr (congrFun same p)
  have next : m'.history.next = m.history.next := by
    funext p
    simp only [History.next, History.calls, History.dues, jobs, fired]
  refine ⟨refines.inv.step step, by rw [made, jobs, refines.made], ?_, ?_, clock, heap ▸ refines.capacity, heap ▸ refines.size, ?_,
    heap ▸ refines.nodup, ?_, fun p turn => absurd turn (idle' p)⟩
  · intro p
    rw [Live, same]
    exact refines.live p
  · intro p t here
    rw [same] at here
    obtain ⟨b, job, keeps⟩ := refines.keeps p t here
    have plain := keeps.next_of_not (idle p)
    refine ⟨b, jobs ▸ job, keeps.interval, ?_, ?_, keeps.unlimited⟩
    · rw [if_neg (idle' p), add_zero, next, plain]
    · rw [released]
      exact keeps.released
  · rw [heap, time]
    exact refines.ordered
  · rw [heap]
    exact refines.pointers

theorem Refines.start (refines : Refines m listed) (turn : m.phase = .rest) (reading : m.clock ≤ fCurrTime) :
    Agenda.Step (m.agenda listed) ((m.Update fCurrTime).agenda listed) ∧ Refines (m.Update fCurrTime) listed := by
  have clock : m.fInterval ≤ fCurrTime - m._tmReferTime := refines.clock.trans (sub_le_sub_right reading _)
  have step : Agenda.Step (m.agenda listed) ((m.Update fCurrTime).agenda listed) :=
    Agenda.Step.start (m.agenda listed) (fCurrTime - m._tmReferTime) turn clock
  refine ⟨step, refines.turned ?_ rfl rfl rfl rfl rfl rfl le_rfl ?_ step⟩
  · rw [turn]
    exact fun p => Lib.Phase.noConfusion
  · exact fun p => Lib.Phase.noConfusion

theorem Refines.turn (refines : Refines m listed) (turn : m.phase = .sweep) : ∃ m' listed', m.turn = some m' ∧
    Agenda.Step (m.agenda listed) (m'.agenda listed') ∧ Refines m' listed' := by
  have idle : ∀ q, m.phase ≠ .call q := fun q => by rw [turn]; exact Lib.Phase.noConfusion
  have finish : (∀ q ∈ listed, m.fInterval < m.history.next q) → Agenda.Step (m.agenda listed) (agenda { m with phase := .rest } listed) ∧
      Refines { m with phase := .rest } listed := by
    intro later
    have step : Agenda.Step (m.agenda listed) (agenda { m with phase := .rest } listed) := Agenda.Step.finish (m.agenda listed) turn later
    exact ⟨step, refines.turned idle rfl rfl rfl rfl rfl rfl refines.clock (fun p => Lib.Phase.noConfusion) step⟩
  cases found : m._minHeap.FindMin with
  | none =>
    refine ⟨{ m with phase := .rest }, listed, by rw [TimerManager.turn, found], finish fun q mem => ?_⟩
    obtain ⟨i, lt, -⟩ := MinHeap.mem_elements.1 ((refines.pointers q).2 mem)
    rw [MinHeap.FindMin, if_neg (by omega)] at found
    cases found
  | some p =>
    have mem : p ∈ listed := (refines.pointers p).1 (MinHeap.mem_of_findMin found)
    obtain ⟨t, b, here, job, keeps⟩ := refines.timer mem
    have plain := keeps.next_of_not (idle p)
    have next : ∀ q ∈ listed, m.getRelativeTime q = m.history.next q := by
      intro q memQ
      obtain ⟨t', b', here', -, keeps'⟩ := refines.timer memQ
      rw [time_of here', keeps'.next_of_not (idle q)]
    have first : (m.agenda listed).First p := by
      refine ⟨mem, fun q memQ => ?_⟩
      obtain ⟨-, root⟩ := MinHeap.findMin_eq_some.1 found
      have le := refines.ordered.root_le ((refines.pointers q).2 memQ)
      rw [root, next p mem, next q memQ] at le
      exact le
    by_cases released : t._bRelease = true
    · -- deleted without a call
      obtain ⟨h, removed, capacity, size, ordered, nodup, contents⟩ :=
        removeMin_spec refines.readable found refines.ordered (fun _ _ => rfl) refines.nodup
      let m' : TimerManager := delete { m with _minHeap := h } p
      have result : m.turn = some m' := by
        simp only [TimerManager.turn, found, here, Option.bind_some, Timer.isRelease, released, if_true, removed]
        rfl
      have gone : m'.timer p = none := Function.update_self _ _ _
      have others : ∀ q, q ≠ p → m'.timer q = m.timer q := fun q ne => Function.update_of_ne ne _ _
      have step : Agenda.Step (m.agenda listed) (m'.agenda (listed.erase p)) :=
        Agenda.Step.drop (m.agenda listed) p turn first (keeps.released.1 released)
      refine ⟨m', listed.erase p, result, step, refines.inv.step step, refines.made, ?_, ?_, refines.clock,
        capacity.trans refines.capacity, ?_, ?_, nodup, ?_, fun q phase => absurd phase (idle q)⟩
      · intro q
        rw [Finset.mem_erase, Live]
        by_cases same : q = p
        · rw [same, gone]
          exact iff_of_false Bool.false_ne_true fun both => both.1 rfl
        · rw [others q same, and_iff_right same]
          exact refines.live q
      · intro q t' here'
        by_cases same : q = p
        · rw [same, gone] at here'
          cases here'
        · exact refines.keeps q t' ((others q same).symm.trans here')
      · show h.currentSize ≤ DefaultSize
        have bound := refines.size
        omega
      · exact MinHeap.Ordered.congr ordered fun q memQ => time_congr (others q ((contents q).1 memQ).2)
      · intro q
        rw [Finset.mem_erase, and_comm]
        exact (contents q).trans (and_congr_left fun _ => refines.pointers q)
    by_cases due : m.fInterval ≥ t._relativeTime
    · let m' : TimerManager := { m with phase := .call p, history := m.history.call p t._relativeTime }
      have result : m.turn = some m' := by
        simp only [TimerManager.turn, found, here, Option.bind_some, Timer.isRelease, if_neg released, if_pos due]
        rfl
      have kept : p ∉ m.history.released := fun mem => released (keeps.released.2 mem)
      have step : Agenda.Step (m.agenda listed) (m'.agenda listed) := by
        have call := Agenda.Step.call (m.agenda listed) p turn first kept (plain.symm.trans_le due)
        rw [show (m.agenda listed).next p = t._relativeTime from plain.symm] at call
        exact call
      refine ⟨m', listed, result, step, refines.inv.step step, refines.made, refines.live, ?_, refines.clock, refines.capacity,
        refines.size, refines.ordered, refines.nodup, refines.pointers, ?_⟩
      · intro q t' here'
        by_cases same : q = p
        · subst same
          obtain rfl := Option.some.inj (here.symm.trans here')
          have next' : m'.history.next q = m.history.next q + b.interval := History.next_call_same job
          refine ⟨b, job, keeps.interval, ?_, keeps.released, keeps.unlimited⟩
          rw [if_pos rfl, next', plain]
        · obtain ⟨b', job', keeps'⟩ := refines.keeps q t' here'
          have away : ¬ m'.phase = .call q := fun e => same (Lib.Phase.call.inj e).symm
          refine ⟨b', job', keeps'.interval, ?_, keeps'.released, keeps'.unlimited⟩
          rw [if_neg away, add_zero, keeps'.next_of_not (idle q)]
          exact (History.next_call_of_ne same).symm
      · intro q phase
        obtain rfl := Lib.Phase.call.inj phase
        exact ⟨found, (time_of here).trans_le due⟩
    · refine ⟨{ m with phase := .rest }, listed, ?_, finish fun q memQ => ?_⟩
      · simp only [TimerManager.turn, found, here, Option.bind_some, Timer.isRelease, if_neg released, if_neg due]
      · have le : m.history.next p ≤ m.history.next q := first.2 q memQ
        rw [← plain] at le
        exact (not_le.1 due).trans_le le

theorem Refines.back (refines : Refines m listed) (turn : m.phase = .call p) : ∃ m', m.back p = some m' ∧
    Agenda.Step (m.agenda listed) (m'.agenda listed) ∧ Refines m' listed := by
  have mem : p ∈ listed := refines.inv.calling p turn
  obtain ⟨found, -⟩ := refines.root p turn
  obtain ⟨t, b, here, job, keeps⟩ := refines.timer mem
  let m₁ : TimerManager := m.put p t.reset
  have at_p : m₁.timer p = some t.reset := Function.update_self _ _ _
  have others : ∀ q, q ≠ p → m₁.timer q = m.timer q := fun q ne => Function.update_of_ne ne _ _
  have live : ∀ q, m₁.Live q ↔ q ∈ listed := by
    intro q
    by_cases same : q = p
    · subst same
      exact iff_of_true (live_of at_p) mem
    · rw [Live, others q same]
      exact refines.live q
  -- the root's time is put forward in place, and the root is taken out
  obtain ⟨h₁, removed, capacity₁, size₁, ordered₁, nodup₁, contents₁⟩ :=
    removeMin_spec (m := m₁) (fun q memQ => (live q).2 ((refines.pointers q).1 memQ)) found refines.ordered
      (fun q ne => time_congr (others q ne)) refines.nodup
  have contents₁ : ∀ q, q ∈ h₁.elements ↔ q ∈ listed ∧ q ≠ p := fun q =>
    (contents₁ q).trans (and_congr_left fun _ => refines.pointers q)
  -- and inserted again
  let m₂ : TimerManager := { m₁ with _minHeap := h₁, phase := .sweep }
  have room : m₂._minHeap.currentSize ≠ m₂._minHeap.maxHeapSize := by
    have full : h₁.maxHeapSize = DefaultSize := capacity₁.trans refines.capacity
    have fewer : h₁.currentSize + 1 ≤ DefaultSize := size₁.trans_le refines.size
    show h₁.currentSize ≠ h₁.maxHeapSize
    omega
  have live₂ : ∀ q ∈ p :: m₂._minHeap.elements, m₂.Live q := by
    intro q memQ
    rcases List.mem_cons.1 memQ with rfl | memQ
    · exact live_of at_p
    · exact (live q).2 ((contents₁ q).1 memQ).1
  obtain ⟨h₂, inserted, capacity₂, size₂, ordered₂, nodup₂, contents₂, -⟩ :=
    insert_spec (m := m₂) live₂ room ordered₁ nodup₁ fun memP => ((contents₁ p).1 memP).2 rfl
  let m' : TimerManager := { m₂ with _minHeap := h₂ }
  have result : m.back p = some m' := by
    rw [TimerManager.back, here, Option.bind_some, removed, Option.bind_some]
    exact inserted
  have step : Agenda.Step (m.agenda listed) (m'.agenda listed) := by
    refine Agenda.Step.back (m.agenda listed) p turn fun exhausted => ?_
    have limited := (Agenda.exhausted_iff (show (m.agenda listed).jobs[p]? = some b from job)).1 exhausted
    rw [keeps.unlimited] at limited
    cases limited
  refine ⟨m', result, step, refines.inv.step step, refines.made, live, ?_, refines.clock,
    capacity₂.trans (capacity₁.trans refines.capacity), ?_, ordered₂, nodup₂, ?_, fun q phase => by cases phase⟩
  · intro q t' here'
    have idle : ¬ m'.phase = .call q := Lib.Phase.noConfusion
    by_cases same : q = p
    · subst same
      obtain rfl := Option.some.inj (at_p.symm.trans here')
      have next := keeps.next
      rw [if_pos turn] at next
      refine ⟨b, job, keeps.interval, ?_, keeps.released, keeps.unlimited⟩
      rw [if_neg idle, add_zero]
      show t._relativeTime + t.m_fInterval = _
      rw [keeps.interval]
      exact next
    · obtain ⟨b', job', keeps'⟩ := refines.keeps q t' ((others q same).symm.trans here')
      have away : ¬ m.phase = .call q := fun e => same (Lib.Phase.call.inj (turn.symm.trans e)).symm
      refine ⟨b', job', keeps'.interval, ?_, keeps'.released, keeps'.unlimited⟩
      rw [if_neg idle, add_zero]
      exact keeps'.next_of_not away
  · show h₂.currentSize ≤ DefaultSize
    have back : h₂.currentSize = m._minHeap.currentSize := size₂.trans size₁
    rw [back]
    exact refines.size
  · intro q
    rw [contents₂ q]
    show q ∈ h₁.elements ∨ q = p ↔ _
    rw [contents₁ q]
    constructor
    · rintro (⟨inside, -⟩ | rfl)
      · exact inside
      · exact mem
    · intro inside
      by_cases same : q = p
      · exact .inr same
      · exact .inl ⟨inside, same⟩

end Refinement

/-- **One step**: what the manager does is a step of the agenda, and the heap is in order after it. -/
theorem Refines.step {m m' : TimerManager} {listed : Finset Nat} {act : Act} (refines : Refines m listed) (ok : Ok m act)
    (next : Timers.step m act = some m') : ∃ listed', Agenda.Step (m.agenda listed) (m'.agenda listed') ∧ Refines m' listed' := by
  cases act with
  | AddIntervalTimer fInterval fCurrTime =>
    simp only [Timers.step] at next
    split_ifs at next with turn
    obtain ⟨pos, reading, fewer⟩ := ok
    exact ⟨_, refines.add turn pos reading fewer next⟩
  | RemoveTimer hTimer =>
    simp only [Timers.step] at next
    split_ifs at next with turn
    cases hTimer with
    | none =>
      obtain rfl := Option.some.inj next
      exact ⟨listed, .skip _ turn, refines⟩
    | some p => exact ⟨listed, refines.remove turn next⟩
  | Update fCurrTime =>
    simp only [Timers.step] at next
    split_ifs at next with turn
    obtain rfl := Option.some.inj next
    exact ⟨listed, refines.start turn ok⟩
  | turn =>
    simp only [Timers.step] at next
    split_ifs at next with turn
    obtain ⟨u, listed', result, step⟩ := refines.turn turn
    obtain rfl := Option.some.inj (result.symm.trans next)
    exact ⟨listed', step⟩
  | back =>
    cases turn : m.phase with
    | call p =>
      simp only [Timers.step, turn] at next
      obtain ⟨u, result, step⟩ := refines.back turn
      obtain rfl := Option.some.inj (result.symm.trans next)
      exact ⟨listed, step⟩
    | rest | sweep =>
      simp only [Timers.step, turn] at next
      cases next

/-- What holds in every state of a run, inside of callbacks too: the schedule, as for the manager of xlib, and the heap. -/
structure Exact (m : TimerManager) : Prop extends
    Scheduled (Next step Ok) TimerManager.phase TimerManager.history TimerManager.fInterval m where
  order : ∀ i, 0 < i → i < m._minHeap.currentSize →
    m.getRelativeTime (m._minHeap.heap ((i - 1) / 2)) ≤ m.getRelativeTime (m._minHeap.heap i)
  /-- The heap holds the timers that were added and are not deleted, each once. -/
  once : m._minHeap.elements.Nodup
  contents : ∀ p, p ∈ m._minHeap.elements ↔ m.Live p
  /-- The timer that is being called is the root, however many are added. -/
  root : ∀ p, m.phase = .call p → m._minHeap.FindMin = some p
  /-- `RemoveMin` takes out the root and nothing else, whatever has become of the times. -/
  removes : ∀ p time, m._minHeap.FindMin = some p → (p :: (m._minHeap.RemoveMin time).1.elements).Perm m._minHeap.elements
  /-- The loop goes on until it is left. -/
  goes : (m.phase = .sweep → (step m .turn).isSome) ∧ ∀ p, m.phase = .call p → (step m .back).isSome

theorem Refines.exact {m : TimerManager} {listed : Finset Nat} (refines : Refines m listed) : Exact m where
  toScheduled := by
    refine scheduled_of_simulation (R := Refines) (fun _ _ refines => refines.inv) ?_ refines
    rintro m listed m' refines ⟨act, ok, next⟩
    exact refines.step ok next
  order := refines.ordered
  once := refines.nodup
  contents p := (refines.pointers p).trans (refines.live p).symm
  root p turn := (refines.root p turn).1
  removes p time found := MinHeap.removeMin_elements time found
  goes := by
    constructor
    · intro turn
      obtain ⟨u, listed', result, -⟩ := refines.turn turn
      simp [Timers.step, turn, result]
    · intro p turn
      obtain ⟨u, result, -⟩ := refines.back turn
      simp [Timers.step, turn, result]

/-- **The timer heap**: in every state of every run the heap is in order and holds the timers that exist, and the timers are
called on schedule. -/
theorem heap_exact (now : ℚ) (memory : Nat → Nat) {as : List Act} {m : TimerManager} (run : Runs step Ok (new now memory) as m) :
    Exact m := by
  obtain ⟨listed, refines⟩ : ∃ listed, Refines m listed := by
    apply run.invariant (fun m => ∃ listed, Refines m listed) ⟨∅, refines_new now memory⟩
    rintro m act m' ⟨listed, refines⟩ ok next
    obtain ⟨listed', -, refines'⟩ := refines.step ok next
    exact ⟨listed', refines'⟩
  exact refines.exact

/-- Timer 0 comes every two seconds; its first call adds timers 2 and 3 and releases timer 1, which is due at the same time. -/
def threeTimers : List Act :=
  [.AddIntervalTimer 2 10, .AddIntervalTimer 2 10, .Update 13, .turn, .AddIntervalTimer 1 13, .AddIntervalTimer 5 13,
    .RemoveTimer (some 1), .back, .turn, .turn, .Update 14, .turn, .back]

theorem heap_exact_three : ∃ m, Runs step Ok (new 10 id) threeTimers m ∧ m.history.fired = [(0, 2), (0, 4)] ∧
    m._minHeap.elements = [2, 3, 0] ∧ Exact m := by
  obtain ⟨m, run, fired, left⟩ : ∃ m, Runs step Ok (new 10 id) threeTimers m ∧ m.history.fired = [(0, 2), (0, 4)] ∧
      m._minHeap.elements = [2, 3, 0] := by
    apply Runs.exists_of_decide
    decide +kernel
  exact ⟨m, run, fired, left, heap_exact 10 id run⟩

end GameServer.LibGame.Timers

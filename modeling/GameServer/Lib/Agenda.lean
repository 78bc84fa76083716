import Mathlib.Algebra.Order.BigOperators.Group.Finset
import Mathlib.Algebra.Order.Floor.Semifield
import Mathlib.Data.Finset.Card
import Mathlib.Data.List.Count
import Mathlib.Data.Prod.Lex
import Mathlib.Logic.Relation
import Mathlib.Order.WithBot
import Mathlib.Tactic.FieldSimp
import Mathlib.Tactic.Linarith
import Mathlib.Tactic.Positivity
import Mathlib.Tactic.Ring

/-!
# Agendas

A *job* comes due at `first`, `first + interval`, `first + 2 * interval` and so on, for ever or `limit` times. An
agenda holds jobs; a sweep at the time `now` calls, one after the other, a listed job whose next due point is
smallest, as long as that point has passed, and while a job is being called others may be added or released. A
released job is taken off the agenda when its turn comes. How the smallest job is found is not said here: that is what
an implementation adds.

`History` is what can be seen from outside; `Sound` and `Settled` are its laws, which hold in every state and between
sweeps. That a sweep ends is `acc_round`: the rank counts the due points that are left and then the listed jobs, and
jobs that are added during a sweep lie in the future.
-/

namespace GameServer.Lib

open Relation

structure Job (K : Type) where
  first : K
  interval : K
  limit : Option Nat
deriving DecidableEq

/-- The jobs in the order of their numbers, the numbers of those that are released, all calls with the due points they
were made for, and the due points of the current or the last sweep. -/
structure History (K : Type) where
  jobs : List (Job K)
  released : List Nat
  fired : List (Nat × K)
  sweep : List K
deriving DecidableEq

inductive Phase where
  | rest
  | sweep
  | call (job : Nat)
deriving DecidableEq

structure Agenda (K : Type) extends History K where
  listed : Finset Nat
  now : K
  phase : Phase

namespace Job

variable {K : Type} [Field K] [LinearOrder K] [IsStrictOrderedRing K] [FloorSemiring K] {b : Job K} {i j : Nat} {now : K}

/-- The due point of the call with the number `j`. -/
def due (b : Job K) (j : Nat) : K := b.first + j * b.interval

/-- How many due points lie at or before `now`. -/
def passed (b : Job K) (now : K) : Nat := ⌊(now - b.first) / b.interval + 1⌋₊

omit [LinearOrder K] [IsStrictOrderedRing K] [FloorSemiring K] in
@[simp] theorem due_zero : b.due 0 = b.first := by
  simp [due]

omit [LinearOrder K] [IsStrictOrderedRing K] [FloorSemiring K] in
theorem due_succ : b.due (j + 1) = b.due j + b.interval := by
  simp only [due]
  push_cast
  ring

omit [FloorSemiring K] in
theorem due_le (pos : 0 < b.interval) (le : i ≤ j) : b.due i ≤ b.due j := by
  have cast : (i : K) ≤ j := Nat.cast_le.2 le
  have scaled := mul_le_mul_of_nonneg_right cast pos.le
  simpa only [due, add_le_add_iff_left] using scaled

omit [FloorSemiring K] in
theorem lt_of_due_lt (pos : 0 < b.interval) (lt : b.due i < b.due j) : i < j := by
  by_contra le
  exact absurd (due_le pos (Nat.le_of_not_lt le)) (not_le.2 lt)

theorem lt_passed_iff (pos : 0 < b.interval) : j < b.passed now ↔ b.due j ≤ now := by
  have scaled : (j : K) ≤ (now - b.first) / b.interval ↔ b.due j ≤ now := by
    rw [le_div_iff₀ pos, le_sub_iff_add_le', due]
  rw [passed, ← Nat.add_one_le_iff, Nat.le_floor_iff' (Nat.succ_ne_zero j), ← scaled]
  push_cast
  exact add_le_add_iff_right 1

end Job

namespace History

variable {K : Type} {s : History K} {b : Job K} {h k : Nat} {d : K}

/-- The due points that the job `h` has been called for. -/
def dues (s : History K) (h : Nat) : List K := (s.fired.filter (·.1 = h)).map Prod.snd

def calls (s : History K) (h : Nat) : Nat := (s.dues h).length

def add (s : History K) (b : Job K) : History K := { s with jobs := s.jobs ++ [b] }

def release (s : History K) (h : Nat) : History K := { s with released := h :: s.released }

def start (s : History K) : History K := { s with sweep := [] }

def call (s : History K) (h : Nat) (d : K) : History K := { s with fired := s.fired ++ [(h, d)], sweep := s.sweep ++ [d] }

theorem mem_released_release (other : k ≠ h) : k ∈ (s.release h).released ↔ k ∈ s.released := by
  rw [release, List.mem_cons, or_iff_right other]

@[simp] theorem dues_add : (s.add b).dues = s.dues := rfl

@[simp] theorem dues_release : (s.release h).dues = s.dues := rfl

@[simp] theorem dues_start : s.start.dues = s.dues := rfl

theorem dues_call : (s.call h d).dues k = if k = h then s.dues h ++ [d] else s.dues k := by
  by_cases same : k = h
  · simp [dues, call, same]
  · have other : h ≠ k := fun e => same e.symm
    simp [dues, call, same, other]

@[simp] theorem calls_add : (s.add b).calls = s.calls := rfl

@[simp] theorem calls_release : (s.release h).calls = s.calls := rfl

@[simp] theorem calls_start : s.start.calls = s.calls := rfl

theorem calls_call : (s.call h d).calls k = if k = h then s.calls h + 1 else s.calls k := by
  rw [calls, dues_call]
  split
  · simp [calls]
  · rfl

variable [Field K]

/-- The next due point of a job, whatever its limit. -/
def next (s : History K) (h : Nat) : K := (s.jobs[h]?.map fun b => b.due (s.calls h)).getD 0

theorem next_of (job : s.jobs[h]? = some b) : s.next h = b.due (s.calls h) := by
  rw [next, job]
  rfl

theorem next_add_of_lt (lt : h < s.jobs.length) : (s.add b).next h = s.next h := by
  rw [next, next, add, List.getElem?_append_left lt]
  rfl

theorem next_add_new (none' : s.calls s.jobs.length = 0) : (s.add b).next s.jobs.length = b.first := by
  have new : (s.add b).jobs[s.jobs.length]? = some b := by simp [add]
  rw [next_of new, calls_add, none', Job.due_zero]

theorem next_call_of_ne (other : k ≠ h) : (s.call h d).next k = s.next k := by
  rw [next, next, calls_call, if_neg other]
  rfl

theorem next_call_same (job : s.jobs[h]? = some b) : (s.call h d).next h = s.next h + b.interval := by
  have job' : (s.call h d).jobs[h]? = some b := job
  rw [next_of job', next_of job, calls_call, if_pos rfl, Job.due_succ]

/-- The laws that hold in every state: a job is called for its due points one after the other, beginning with the
first, for no more of them than its limit says, for none before it has come, and a sweep calls in the order of the due
points. -/
structure Sound [LinearOrder K] (s : History K) (now : K) : Prop where
  progress : ∀ h b, s.jobs[h]? = some b → s.dues h = (List.range (s.calls h)).map b.due
  known : ∀ f ∈ s.fired, f.1 < s.jobs.length
  passed : ∀ f ∈ s.fired, f.2 ≤ now
  limited : ∀ h b n, s.jobs[h]? = some b → b.limit = some n → s.calls h ≤ n
  ordered : s.sweep.Pairwise (· ≤ ·)

/-- The law that holds between sweeps: a job that is not released has been called for all its due points up to `now`. -/
def Settled [LinearOrder K] (s : History K) (now : K) : Prop :=
  ∀ h b, s.jobs[h]? = some b → h ∉ s.released → ∀ j, j < s.calls h ↔ b.due j ≤ now ∧ ∀ n ∈ b.limit, j < n

end History

section Rounds

variable {S T : Type} {step : S → S → Prop} {phase : S → Phase} {step' : T → T → Prop} {phase' : T → Phase} {R : S → T → Prop}
  {s s' : S} {t : T}

/-- A step inside a sweep. -/
def Within (step : S → S → Prop) (phase : S → Phase) (s s' : S) : Prop := step s s' ∧ phase s ≠ .rest ∧ phase s' ≠ .rest

/-- From one turn of a sweep to a later one, with all that the calls in between do. -/
def Round (step : S → S → Prop) (phase : S → Phase) (s s' : S) : Prop :=
  phase s = .sweep ∧ phase s' = .sweep ∧ TransGen (Within step phase) s s'

/-- What simulates a machine whose sweeps end has sweeps that end. -/
theorem acc_round_of_simulation (phases : ∀ s t, R s t → phase s = phase' t)
    (simulates : ∀ s t s', R s t → step s s' → ∃ t', step' t t' ∧ R s' t') (related : R s t)
    (acc : Acc (flip (Round step' phase')) t) : Acc (flip (Round step phase)) s := by
  have within : ∀ s t s', R s t → Within step phase s s' → ∃ t', Within step' phase' t t' ∧ R s' t' := by
    rintro s t s' related ⟨next, from', to'⟩
    obtain ⟨t', next', related'⟩ := simulates s t s' related next
    exact ⟨t', ⟨next', phases s t related ▸ from', phases s' t' related' ▸ to'⟩, related'⟩
  induction acc generalizing s with
  | intro t _ ih =>
    constructor
    rintro s' ⟨start, stop, way⟩
    obtain ⟨t', way', related'⟩ : ∃ t', TransGen (Within step' phase') t t' ∧ R s' t' := by
      clear stop
      induction way with
      | single next =>
        obtain ⟨t', next', related'⟩ := within _ _ _ related next
        exact ⟨t', .single next', related'⟩
      | tail _ next before =>
        obtain ⟨u, way', between⟩ := before
        obtain ⟨t', next', related'⟩ := within _ _ _ between next
        exact ⟨t', way'.tail next', related'⟩
    have round : Round step' phase' t t' := ⟨phases s t related ▸ start, phases s' t' related' ▸ stop, way'⟩
    exact ih t' round related'

end Rounds

namespace Agenda

variable {K : Type} [Field K] [LinearOrder K] {a a' : Agenda K} {b : Job K} {h k : Nat} {now : K}

/-- No listed job is due before `h`. -/
def First (a : Agenda K) (h : Nat) : Prop := h ∈ a.listed ∧ ∀ k ∈ a.listed, a.next h ≤ a.next k

/-- The job has been called as often as its limit says. -/
def Exhausted (a : Agenda K) (h : Nat) : Prop := ∃ b ∈ a.jobs[h]?, b.limit = some (a.calls h)

inductive Step : Agenda K → Agenda K → Prop where
  | add (a : Agenda K) (b : Job K) (turn : a.phase ≠ .sweep) (later : a.now < b.first) (pos : 0 < b.interval)
      (limit : b.limit ≠ some 0) : Step a ⟨a.toHistory.add b, insert a.jobs.length a.listed, a.now, a.phase⟩
  | release (a : Agenda K) (h : Nat) (turn : a.phase ≠ .sweep) (known : h < a.jobs.length) : Step a ⟨a.toHistory.release h, a.listed, a.now, a.phase⟩
  | skip (a : Agenda K) (turn : a.phase ≠ .sweep) : Step a a
  | start (a : Agenda K) (now : K) (turn : a.phase = .rest) (clock : a.now ≤ now) :
      Step a ⟨a.toHistory.start, a.listed, now, .sweep⟩
  | drop (a : Agenda K) (h : Nat) (turn : a.phase = .sweep) (first : a.First h) (released : h ∈ a.released) :
      Step a { a with listed := a.listed.erase h }
  | call (a : Agenda K) (h : Nat) (turn : a.phase = .sweep) (first : a.First h) (kept : h ∉ a.released) (due : a.next h ≤ a.now) :
      Step a ⟨a.toHistory.call h (a.next h), a.listed, a.now, .call h⟩
  | back (a : Agenda K) (h : Nat) (turn : a.phase = .call h) (more : ¬ a.Exhausted h) : Step a { a with phase := .sweep }
  | last (a : Agenda K) (h : Nat) (turn : a.phase = .call h) (exhausted : a.Exhausted h) :
      Step a { a with phase := .sweep, listed := a.listed.erase h }
  | finish (a : Agenda K) (turn : a.phase = .sweep) (later : ∀ h ∈ a.listed, a.now < a.next h) : Step a { a with phase := .rest }

/-- An agenda without jobs. -/
def empty (now : K) : Agenda K := ⟨⟨[], [], [], []⟩, ∅, now, .rest⟩

structure Inv (a : Agenda K) : Prop where
  sound : a.Sound a.now
  jobs : ∀ b ∈ a.jobs, 0 < b.interval ∧ b.limit ≠ some 0
  listed : ∀ h ∈ a.listed, h < a.jobs.length
  released : ∀ h ∈ a.released, h < a.jobs.length
  calling : ∀ h, a.phase = .call h → h ∈ a.listed
  more : ∀ h ∈ a.listed, a.phase ≠ .call h → ¬ a.Exhausted h
  gone : ∀ h, h < a.jobs.length → h ∉ a.listed → h ∈ a.released ∨ a.Exhausted h
  rest : a.phase = .rest → ∀ h ∈ a.listed, a.now < a.next h
  front : ∀ d ∈ a.sweep, d ≤ a.now ∧ ∀ h ∈ a.listed, d ≤ a.next h

theorem Inv.empty : (empty now).Inv where
  sound := by
    refine ⟨fun h b job => ?_, nofun, nofun, fun h b n job => ?_, .nil⟩
    · cases job
    · cases job
  jobs := nofun
  listed := nofun
  released := nofun
  calling := nofun
  more := nofun
  gone _ lt := absurd lt (Nat.not_lt_zero _)
  rest _ _ mem := absurd mem (Finset.notMem_empty _)
  front := nofun

theorem calls_new (sound : a.Sound now) : a.calls a.jobs.length = 0 := by
  have none' : ∀ f ∈ a.fired, ¬ f.1 = a.jobs.length := fun f mem => (sound.known f mem).ne
  have nothing : a.fired.filter (fun f => f.1 = a.jobs.length) = [] := List.filter_eq_nil_iff.2 (by simpa using none')
  simp [History.calls, History.dues, nothing]

omit [Field K] [LinearOrder K] in
theorem getElem?_add {jobs : List (Job K)} {b' : Job K} :
    (jobs ++ [b])[h]? = some b' ↔ jobs[h]? = some b' ∨ h = jobs.length ∧ b' = b := by
  rcases Nat.lt_trichotomy h jobs.length with lt | rfl | lt
  · rw [List.getElem?_append_left lt]
    exact (or_iff_left fun new => lt.ne new.1).symm
  · simp [eq_comm]
  · have le : jobs.length + 1 ≤ h := lt
    rw [List.getElem?_eq_none (by simpa using le), List.getElem?_eq_none lt.le]
    simp [lt.ne']

omit [Field K] [LinearOrder K] in
/-- Whether a job is exhausted is a matter of its limit and its calls. -/
theorem exhausted_iff (job : a.jobs[h]? = some b) : a.Exhausted h ↔ b.limit = some (a.calls h) := by
  simp [Exhausted, job]

theorem Inv.add (inv : a.Inv) (later : a.now < b.first) (pos : 0 < b.interval) (limit : b.limit ≠ some 0) :
    Inv ⟨a.toHistory.add b, insert a.jobs.length a.listed, a.now, a.phase⟩ := by
  have none' : a.calls a.jobs.length = 0 := calls_new inv.sound
  have old : ∀ h ∈ a.listed, (a.toHistory.add b).next h = a.next h := fun h mem => History.next_add_of_lt (inv.listed h mem)
  have new : (a.toHistory.add b).next a.jobs.length = b.first := History.next_add_new none'
  have length : (a.toHistory.add b).jobs.length = a.jobs.length + 1 := List.length_append
  have same : ∀ h, h < a.jobs.length → (a.toHistory.add b).jobs[h]? = a.jobs[h]? := fun h lt => List.getElem?_append_left lt
  refine ⟨⟨?_, ?_, inv.sound.passed, ?_, inv.sound.ordered⟩, ?_, ?_, ?_, ?_, ?_, ?_, ?_, ?_⟩
  · intro h b' job
    rcases getElem?_add.1 job with job | ⟨rfl, rfl⟩
    · exact inv.sound.progress h b' job
    · have nothing : a.dues a.jobs.length = [] := List.length_eq_zero_iff.1 none'
      simp [nothing, none']
  · intro f mem
    rw [length]
    exact (inv.sound.known f mem).trans (Nat.lt_succ_self _)
  · intro h b' n job limited
    rcases getElem?_add.1 job with job | ⟨rfl, rfl⟩
    · exact inv.sound.limited h b' n job limited
    · simp [none']
  · intro b' mem
    rcases List.mem_append.1 mem with mem | mem
    · exact inv.jobs b' mem
    · obtain rfl := List.mem_singleton.1 mem
      exact ⟨pos, limit⟩
  · intro h mem
    show h < (a.toHistory.add b).jobs.length
    rw [length]
    rcases Finset.mem_insert.1 mem with rfl | mem
    · exact Nat.lt_succ_self _
    · exact (inv.listed h mem).trans (Nat.lt_succ_self _)
  · intro h mem
    show h < (a.toHistory.add b).jobs.length
    rw [length]
    exact (inv.released h mem).trans (Nat.lt_succ_self _)
  · intro h turn
    exact Finset.mem_insert_of_mem (inv.calling h turn)
  · intro h mem turn exhausted
    obtain ⟨b', job, limited⟩ := exhausted
    rcases getElem?_add.1 job with job | ⟨rfl, rfl⟩
    · have mem := Finset.mem_of_mem_insert_of_ne mem (List.getElem?_eq_some_iff.1 job).1.ne
      exact inv.more h mem turn ⟨b', job, limited⟩
    · exact limit (limited.trans (congrArg some none'))
  · intro h lt off
    have lt : h < a.jobs.length + 1 := length ▸ lt
    obtain ⟨other, off⟩ := not_or.1 (Finset.mem_insert.not.1 off)
    have lt : h < a.jobs.length := by omega
    rcases inv.gone h lt off with released | exhausted
    · exact .inl released
    · obtain ⟨b', job, limited⟩ := exhausted
      exact .inr ⟨b', (same h lt).trans job, limited⟩
  · intro turn h mem
    rcases Finset.mem_insert.1 mem with rfl | mem
    · exact later.trans_eq new.symm
    · exact (inv.rest turn h mem).trans_eq (old h mem).symm
  · intro d mem
    obtain ⟨past, front⟩ := inv.front d mem
    refine ⟨past, fun h memH => ?_⟩
    rcases Finset.mem_insert.1 memH with rfl | memH
    · exact (past.trans later.le).trans_eq new.symm
    · exact (front h memH).trans_eq (old h memH).symm

theorem Inv.release (inv : a.Inv) (known : h < a.jobs.length) : Inv ⟨a.toHistory.release h, a.listed, a.now, a.phase⟩ where
  sound := { inv.sound with }
  jobs := inv.jobs
  listed := inv.listed
  released k mem := by
    rcases List.mem_cons.1 mem with rfl | mem
    · exact known
    · exact inv.released k mem
  calling := inv.calling
  more := inv.more
  gone k lt off := (inv.gone k lt off).imp_left (List.mem_cons_of_mem _)
  rest := inv.rest
  front := inv.front

theorem Inv.start (inv : a.Inv) (turn : a.phase = .rest) (clock : a.now ≤ now) :
    Inv ⟨a.toHistory.start, a.listed, now, .sweep⟩ where
  sound := ⟨inv.sound.progress, inv.sound.known, fun f mem => (inv.sound.passed f mem).trans clock, inv.sound.limited, .nil⟩
  jobs := inv.jobs
  listed := inv.listed
  released := inv.released
  calling := nofun
  more h mem _ := inv.more h mem (by rw [turn]; exact Phase.noConfusion)
  gone := inv.gone
  rest := nofun
  front := nofun

/-- A job is taken off because it is released or exhausted. -/
theorem Inv.drop (inv : a.Inv) (ended : h ∈ a.released ∨ a.Exhausted h) (turn : a.phase = .sweep ∨ a.phase = .call h) :
    Inv { a with phase := .sweep, listed := a.listed.erase h } where
  sound := inv.sound
  jobs := inv.jobs
  listed k mem := inv.listed k (Finset.mem_of_mem_erase mem)
  released := inv.released
  calling := nofun
  more k mem _ := by
    apply inv.more k (Finset.mem_of_mem_erase mem)
    rcases turn with turn | turn
    · rw [turn]
      exact Phase.noConfusion
    · rw [turn]
      intro same
      exact Finset.ne_of_mem_erase mem (Phase.call.inj same).symm
  gone k lt off := by
    by_cases same : k = h
    · exact same ▸ ended
    · exact inv.gone k lt fun mem => off (Finset.mem_erase_of_ne_of_mem same mem)
  rest := nofun
  front d mem := ⟨(inv.front d mem).1, fun k memK => (inv.front d mem).2 k (Finset.mem_of_mem_erase memK)⟩

theorem Inv.call [IsStrictOrderedRing K] (inv : a.Inv) (turn : a.phase = .sweep) (first : a.First h) (due : a.next h ≤ a.now) :
    Inv ⟨a.toHistory.call h (a.next h), a.listed, a.now, .call h⟩ := by
  obtain ⟨mem, first⟩ := first
  obtain ⟨b, job⟩ : ∃ b, a.jobs[h]? = some b := ⟨_, List.getElem?_eq_getElem (inv.listed h mem)⟩
  have pos := (inv.jobs b (List.mem_of_getElem? job)).1
  have idle : ∀ k, a.phase ≠ .call k := fun k => by rw [turn]; exact Phase.noConfusion
  have at_h : a.next h = b.due (a.calls h) := History.next_of job
  have later : ∀ k ∈ a.listed, a.next h ≤ (a.toHistory.call h (a.next h)).next k := by
    intro k memK
    by_cases same : k = h
    · subst same
      rw [History.next_call_same job]
      exact le_add_of_nonneg_right pos.le
    · rw [History.next_call_of_ne same]
      exact first k memK
  refine ⟨⟨?_, ?_, ?_, ?_, ?_⟩, inv.jobs, inv.listed, inv.released, ?_, ?_, ?_, nofun, ?_⟩
  · intro k b' job'
    have before := inv.sound.progress k b' job'
    rw [History.dues_call, History.calls_call]
    split
    next same =>
      subst same
      obtain rfl := Option.some.inj (job.symm.trans job')
      rw [before, List.range_succ, List.map_append, at_h]
      rfl
    next => exact before
  · intro f memF
    rcases List.mem_append.1 memF with memF | memF
    · exact inv.sound.known f memF
    · obtain rfl := List.mem_singleton.1 memF
      exact inv.listed h mem
  · intro f memF
    rcases List.mem_append.1 memF with memF | memF
    · exact inv.sound.passed f memF
    · obtain rfl := List.mem_singleton.1 memF
      exact due
  · intro k b' n job' limited
    have before := inv.sound.limited k b' n job' limited
    rw [History.calls_call]
    split
    next same =>
      subst same
      have more : ¬ b'.limit = some (a.calls k) := fun e => inv.more k mem (idle k) ((exhausted_iff (a := a) job').2 e)
      rw [limited] at more
      have ne : n ≠ a.calls k := fun e => more (congrArg some e)
      exact lt_of_le_of_ne before ne.symm
    next => exact before
  · exact List.pairwise_append.2 ⟨inv.sound.ordered, List.pairwise_singleton _ _, fun d memD e memE => by
      obtain rfl := List.mem_singleton.1 memE
      exact (inv.front d memD).2 h mem⟩
  · intro k same
    exact Phase.call.inj same ▸ mem
  · intro k memK turn'
    have other : k ≠ h := fun same => turn' (congrArg Phase.call same.symm)
    rintro ⟨b', job', limited⟩
    rw [History.calls_call, if_neg other] at limited
    exact inv.more k memK (idle k) ⟨b', job', limited⟩
  · intro k lt off
    have other : k ≠ h := fun same => off (same ▸ mem)
    rcases inv.gone k lt off with released | ⟨b', job', limited⟩
    · exact .inl released
    · refine .inr ⟨b', job', ?_⟩
      rw [History.calls_call, if_neg other]
      exact limited
  · intro d memD
    rcases List.mem_append.1 memD with memD | memD
    · exact ⟨(inv.front d memD).1, fun k memK => ((inv.front d memD).2 h mem).trans (later k memK)⟩
    · obtain rfl := List.mem_singleton.1 memD
      exact ⟨due, later⟩

theorem Inv.back (inv : a.Inv) (turn : a.phase = .call h) (more : ¬ a.Exhausted h) : Inv { a with phase := .sweep } where
  sound := inv.sound
  jobs := inv.jobs
  listed := inv.listed
  released := inv.released
  calling := nofun
  more k mem _ := by
    by_cases same : k = h
    · exact same ▸ more
    · apply inv.more k mem
      rw [turn]
      exact fun e => same (Phase.call.inj e).symm
  gone := inv.gone
  rest := nofun
  front := inv.front

theorem Inv.finish (inv : a.Inv) (turn : a.phase = .sweep) (later : ∀ h ∈ a.listed, a.now < a.next h) : Inv { a with phase := .rest } where
  sound := inv.sound
  jobs := inv.jobs
  listed := inv.listed
  released := inv.released
  calling := nofun
  more k mem _ := inv.more k mem (by rw [turn]; exact Phase.noConfusion)
  gone := inv.gone
  rest _ := later
  front := inv.front

theorem Inv.step [IsStrictOrderedRing K] (inv : a.Inv) (next : Step a a') : a'.Inv := by
  cases next with
  | add b turn later pos limit => exact inv.add later pos limit
  | release h turn known => exact inv.release known
  | skip turn => exact inv
  | start now turn clock => exact inv.start turn clock
  | drop h turn first released =>
    have dropped := inv.drop (.inl released) (.inl turn)
    rwa [← turn] at dropped
  | call h turn first kept due => exact inv.call turn first due
  | back h turn more => exact inv.back turn more
  | last h turn exhausted => exact inv.drop (.inr exhausted) (.inr turn)
  | finish turn later => exact inv.finish turn later

theorem Inv.steps [IsStrictOrderedRing K] (inv : a.Inv) (way : ReflTransGen Step a a') : a'.Inv := by
  induction way with
  | refl => exact inv
  | tail _ next ih => exact ih.step next

theorem Inv.settled [IsStrictOrderedRing K] (inv : a.Inv) (turn : a.phase = .rest) : a.Settled a.now := by
  intro h b job kept j
  have pos := (inv.jobs b (List.mem_of_getElem? job)).1
  constructor
  · intro lt
    have mem : b.due j ∈ a.dues h := by
      rw [inv.sound.progress h b job]
      exact List.mem_map_of_mem (List.mem_range.2 lt)
    obtain ⟨f, memF, here⟩ := List.mem_map.1 mem
    have past := inv.sound.passed f (List.mem_of_mem_filter memF)
    exact ⟨here ▸ past, fun n limited => lt.trans_le (inv.sound.limited h b n job limited)⟩
  · rintro ⟨past, limited⟩
    by_cases mem : h ∈ a.listed
    · have later := inv.rest turn h mem
      rw [History.next_of job] at later
      exact Job.lt_of_due_lt pos (past.trans_lt later)
    · have exhausted := (inv.gone h (List.getElem?_eq_some_iff.1 job).1 mem).resolve_left kept
      exact limited _ ((exhausted_iff job).1 exhausted)

/-- A released job is never called again. -/
theorem Step.released (next : Step a a') (released : h ∈ a.released) : h ∈ a'.released ∧ a'.dues h = a.dues h := by
  cases next with
  | call k turn first kept due =>
    refine ⟨released, ?_⟩
    have other : h ≠ k := fun same => kept (same ▸ released)
    rw [History.dues_call, if_neg other]
  | release k turn known => exact ⟨List.mem_cons_of_mem _ released, rfl⟩
  | add b turn later pos limit => exact ⟨released, rfl⟩
  | skip turn => exact ⟨released, rfl⟩
  | start now turn clock => exact ⟨released, rfl⟩
  | drop k turn first ended => exact ⟨released, rfl⟩
  | back k turn more => exact ⟨released, rfl⟩
  | last k turn exhausted => exact ⟨released, rfl⟩
  | finish turn later => exact ⟨released, rfl⟩

theorem released_steps (way : ReflTransGen Step a a') (released : h ∈ a.released) :
    h ∈ a'.released ∧ a'.dues h = a.dues h := by
  induction way with
  | refl => exact ⟨released, rfl⟩
  | tail _ next ih =>
    obtain ⟨still, same⟩ := next.released ih.1
    exact ⟨still, same.trans ih.2⟩

/-! ### A sweep ends -/

variable [IsStrictOrderedRing K] [FloorSemiring K]

/-- The due points of a job that have passed and that it has not been called for. -/
def remaining (a : Agenda K) (h : Nat) : Nat := (a.jobs[h]?.map fun b => b.passed a.now).getD 0 - a.calls h

def work (a : Agenda K) : Nat := ∑ h ∈ a.listed, a.remaining h

/-- The due points that are left; and in a turn of the sweep the listed jobs, which a call can only add to. -/
def rank (a : Agenda K) : Nat ×ₗ WithTop Nat := toLex (a.work, if a.phase = .sweep then (a.listed.card : WithTop Nat) else ⊤)

omit [IsStrictOrderedRing K] in
theorem remaining_of (job : a.jobs[h]? = some b) : a.remaining h = b.passed a.now - a.calls h := by
  rw [remaining, job]
  rfl

omit [IsStrictOrderedRing K] in
theorem work_erase_le : ∑ k ∈ a.listed.erase h, a.remaining k ≤ a.work :=
  Finset.sum_le_sum_of_subset (Finset.erase_subset h a.listed)

/-- A new job adds no work: its due points lie in the future. -/
theorem work_add (inv : a.Inv) (later : a.now < b.first) (pos : 0 < b.interval) :
    work ⟨a.toHistory.add b, insert a.jobs.length a.listed, a.now, a.phase⟩ = a.work := by
  have fresh : a.jobs.length ∉ a.listed := fun mem => lt_irrefl _ (inv.listed _ mem)
  have nothing : b.passed a.now = 0 := by
    by_contra some'
    have due := (Job.lt_passed_iff pos).1 (Nat.pos_of_ne_zero some')
    rw [Job.due_zero] at due
    exact absurd later (not_lt.2 due)
  have new : remaining ⟨a.toHistory.add b, insert a.jobs.length a.listed, a.now, a.phase⟩ a.jobs.length = 0 := by
    have job : (a.toHistory.add b).jobs[a.jobs.length]? = some b := getElem?_add.2 (.inr ⟨rfl, rfl⟩)
    rw [remaining_of job, nothing, Nat.zero_sub]
  rw [work, Finset.sum_insert fresh, new, Nat.zero_add, work]
  refine Finset.sum_congr rfl fun h mem => ?_
  have same : (a.toHistory.add b).jobs[h]? = a.jobs[h]? := List.getElem?_append_left (inv.listed h mem)
  simp only [remaining, same]
  rfl

/-- A call does one due point of the work. -/
theorem work_call (inv : a.Inv) (mem : h ∈ a.listed) (due : a.next h ≤ a.now) :
    work ⟨a.toHistory.call h (a.next h), a.listed, a.now, .call h⟩ < a.work := by
  obtain ⟨b, job⟩ : ∃ b, a.jobs[h]? = some b := ⟨_, List.getElem?_eq_getElem (inv.listed h mem)⟩
  have pos := (inv.jobs b (List.mem_of_getElem? job)).1
  have left : a.calls h < b.passed a.now := by
    rw [Job.lt_passed_iff pos, ← History.next_of job]
    exact due
  have calls : ∀ k, (a.toHistory.call h (a.next h)).calls k = if k = h then a.calls h + 1 else a.calls k := fun k =>
    History.calls_call
  refine Finset.sum_lt_sum (fun k _ => ?_) ⟨h, mem, ?_⟩
  · by_cases same : k = h
    · subst same
      simp only [remaining, calls, if_true]
      exact Nat.sub_le_sub_left (Nat.le_succ _) _
    · simp only [remaining, calls, if_neg same]
      exact le_rfl
  · have after : remaining ⟨a.toHistory.call h (a.next h), a.listed, a.now, .call h⟩ h = b.passed a.now - (a.calls h + 1) := by
      have job' : (a.toHistory.call h (a.next h)).jobs[h]? = some b := job
      simp only [remaining, job', calls, if_true]
      rfl
    rw [after, remaining_of job]
    omega

/-- A step inside a sweep does not raise the rank, and a turn lowers it. -/
theorem Step.rank (inv : a.Inv) (next : Step a a') (inside : a.phase ≠ .rest) (inside' : a'.phase ≠ .rest) :
    a'.rank ≤ a.rank ∧ (a.phase = .sweep → a'.rank < a.rank) := by
  cases next with
  | add b turn later pos limit =>
    have same : rank ⟨a.toHistory.add b, insert a.jobs.length a.listed, a.now, a.phase⟩ = a.rank := by
      rw [Agenda.rank, work_add inv later pos, if_neg turn, Agenda.rank, if_neg turn]
    exact ⟨same.le, fun sweep => absurd sweep turn⟩
  | release k turn known => exact ⟨le_rfl, fun sweep => absurd sweep turn⟩
  | skip turn => exact ⟨le_rfl, fun sweep => absurd sweep turn⟩
  | start now turn clock => exact absurd turn inside
  | drop k turn first released =>
    have lower : rank { a with listed := a.listed.erase k } < a.rank := by
      rw [Agenda.rank, Agenda.rank, if_pos turn, if_pos turn, Prod.Lex.toLex_lt_toLex]
      rcases (work_erase_le (a := a) (h := k)).lt_or_eq with lt | eq
      · exact .inl lt
      · exact .inr ⟨eq, WithTop.coe_lt_coe.2 (Finset.card_erase_lt_of_mem first.1)⟩
    exact ⟨lower.le, fun _ => lower⟩
  | call k turn first kept due =>
    have lower : rank ⟨a.toHistory.call k (a.next k), a.listed, a.now, .call k⟩ < a.rank :=
      Prod.Lex.toLex_lt_toLex.2 (.inl (work_call inv first.1 due))
    exact ⟨lower.le, fun _ => lower⟩
  | back k turn more =>
    refine ⟨Prod.Lex.toLex_le_toLex.2 (.inr ⟨rfl, ?_⟩), fun sweep => absurd (turn.symm.trans sweep) Phase.noConfusion⟩
    simp [turn]
  | last k turn exhausted =>
    refine ⟨?_, fun sweep => absurd (turn.symm.trans sweep) Phase.noConfusion⟩
    rw [Agenda.rank, Agenda.rank, Prod.Lex.toLex_le_toLex]
    rcases (work_erase_le (a := a) (h := k)).lt_or_eq with lt | eq
    · exact .inl lt
    · exact .inr ⟨eq, by simp [turn]⟩
  | finish turn later => exact absurd rfl inside'

/-- **A sweep ends**, whatever the calls do: there is no infinite sequence of turns. -/
theorem acc_round (inv : a.Inv) : Acc (flip (Round Step Agenda.phase)) a := by
  induction rank : a.rank using WellFoundedLT.induction generalizing a with
  | ind r ih =>
    constructor
    rintro a' ⟨turn, -, way⟩
    have lower : a'.Inv ∧ a'.rank < a.rank := by
      clear ih
      induction way with
      | single next =>
        obtain ⟨next, inside, inside'⟩ := next
        exact ⟨inv.step next, (next.rank inv inside inside').2 turn⟩
      | tail _ next before =>
        obtain ⟨next, inside, inside'⟩ := next
        exact ⟨before.1.step next, (next.rank before.1 inside inside').1.trans_lt before.2⟩
    exact ih a'.rank (rank ▸ lower.2) lower.1 rfl

end Agenda

/-! ### Machines with an agenda -/

section Machines

variable {K S : Type} [Field K] [LinearOrder K] [IsStrictOrderedRing K] [FloorSemiring K] {step : S → S → Prop} {phase : S → Phase}
  {history : S → History K} {now : S → K} {R : S → Finset Nat → Prop} {s : S} {listed : Finset Nat}

/-- A machine keeps to the schedule of its history at `s` and from there on. -/
structure Scheduled (step : S → S → Prop) (phase : S → Phase) (history : S → History K) (now : S → K) (s : S) : Prop where
  sound : (history s).Sound (now s)
  settled : phase s = .rest → (history s).Settled (now s)
  silent : ∀ u, ReflTransGen step s u → ∀ h ∈ (history s).released, (history u).dues h = (history s).dues h
  ends : Acc (flip (Round step phase)) s

/-- **The rule for schedulers**: a machine whose steps are steps of an agenda keeps to the schedule. -/
theorem scheduled_of_simulation (inv : ∀ s listed, R s listed → Agenda.Inv ⟨history s, listed, now s, phase s⟩)
    (simulates : ∀ s listed s', R s listed → step s s' → ∃ listed',
      Agenda.Step ⟨history s, listed, now s, phase s⟩ ⟨history s', listed', now s', phase s'⟩ ∧ R s' listed')
    (related : R s listed) : Scheduled step phase history now s where
  sound := (inv s listed related).sound
  settled turn := (inv s listed related).settled turn
  silent u way h mem := by
    have simulated : ∃ listed', ReflTransGen Agenda.Step ⟨history s, listed, now s, phase s⟩ ⟨history u, listed', now u, phase u⟩ ∧
        R u listed' := by
      induction way with
      | refl => exact ⟨listed, .refl, related⟩
      | tail _ next ih =>
        obtain ⟨between, way, related'⟩ := ih
        obtain ⟨listed', next', related''⟩ := simulates _ between _ related' next
        exact ⟨listed', way.tail next', related''⟩
    obtain ⟨listed', way', -⟩ := simulated
    exact (Agenda.released_steps way' mem).2
  ends := by
    have phases : ∀ (s : S) (a : Agenda K), (∃ listed, a = ⟨history s, listed, now s, phase s⟩ ∧ R s listed) → phase s = a.phase := by
      rintro s a ⟨listed, rfl, -⟩
      rfl
    refine acc_round_of_simulation phases ?_ ⟨listed, rfl, related⟩ (Agenda.acc_round (inv s listed related))
    rintro s a s' ⟨listed, rfl, related⟩ next
    obtain ⟨listed', next', related'⟩ := simulates s listed s' related next
    exact ⟨_, next', listed', rfl, related'⟩

end Machines

end GameServer.Lib

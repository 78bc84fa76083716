import GameServer.Lib.Mailbox
import GameServer.Lib.Run
import Mathlib.Data.List.Nodup
import Mathlib.Logic.Function.Basic

/-!
# The database service

`DBService` hands each command to the worker of its key. A worker pops one command at a time under
its lock, executes it outside and gives it to `OnGetResult`; after `bExit` it drains its queue in
place. `Update` takes the results in one section and then calls the callbacks. The model has one
action for each of these sections, so that any number of threads may interleave them; a `push` and a
`close` leave a `notify_all` behind, and a waiting worker may also wake up by itself.

A query that goes through without a stored result ends the process: `GetResult` fetches a row from it
before `syncQuery` asks whether there is one. Otherwise a worker's commands and their results never
overtake each other: `Inv` says so for each worker, and `commands_executed_iff` is about the whole
service. Submissions come before the worker is closed (`BeforeClose`).
-/

namespace GameServer.Db

open GameServer.Lib

inductive SqlCommondType where
  | sql_query
  | sql_exect
  deriving DecidableEq, Repr

/-- A command as it was submitted; `id` tells it from the others, and an empty `func` is `none`. -/
structure SqlCommond where
  id : Nat
  key : UInt64
  sql : String
  type : SqlCommondType
  func : Option Nat
  deriving DecidableEq, Repr

/-- A stored result: the names of the fields, and the rows that are still to be fetched. -/
structure MYSQL_RES where
  fields : List String
  rows : List (List (Option String))
  deriving DecidableEq, Repr

/-- `row` was fetched last, and `rowData` has its cells under the names of the fields. -/
structure DBResult where
  pResult : Option MYSQL_RES
  row : Option (List (Option String))
  rowData : List (String × Option String)
  err : String
  isSucce : Bool
  deriving DecidableEq, Repr

def DBResult.init : DBResult := ⟨none, none, [], "", true⟩

/-- `rowData[name] = cell`. -/
def setCell (rowData : List (String × Option String)) (field : String × Option String) : List (String × Option String) :=
  rowData.filter (·.1 ≠ field.1) ++ [field]

/-- There is none where `mysql_fetch_row` goes through a null pointer. -/
def DBResult.GetResult (result : DBResult) (p : Option MYSQL_RES) : Option DBResult :=
  match p with
  | none => none
  | some p =>
    match p.rows with
    | [] => some { result with pResult := some p, row := none }
    | row :: rows =>
      some { result with
        pResult := some { p with rows := rows }
        row := some row
        rowData := (p.fields.zip row).foldl setCell result.rowData }

/-- What the database answers: whether the statement went through, the stored result, and the error. -/
structure Reply where
  mysql_real_query : Bool
  mysql_store_result : Option MYSQL_RES
  mysql_error : String
  deriving DecidableEq, Repr

def syncQuery (reply : Reply) (result : DBResult) : Option (Bool × DBResult) :=
  if reply.mysql_real_query then
    (result.GetResult reply.mysql_store_result).map fun result => (result.pResult.isSome, result)
  else some (false, result)

def syncExcute (reply : Reply) : Bool := reply.mysql_real_query

/-- Whether the command succeeded, and its result. -/
def ProcessSql (cmd : SqlCommond) (reply : Reply) : Option (Bool × DBResult) :=
  match cmd.type with
  | .sql_query => syncQuery reply .init
  | .sql_exect => some (syncExcute reply, .init)

/-- The result that goes with the command to `OnGetResult`. -/
def resultOf (cmd : SqlCommond) (reply : Reply) : Option DBResult :=
  (ProcessSql cmd reply).map fun processed =>
    if processed.1 then processed.2
    else { processed.2 with err := cmd.sql ++ "," ++ reply.mysql_error, isSucce := false }

/-- Where `ThreadFunction` is. -/
inductive Phase where
  /-- At the test of `bExit`. -/
  | test
  /-- Past the test, before the lock. -/
  | look
  /-- In `variable.wait`. -/
  | wait
  | process (cmd : SqlCommond)
  | report (cmd : SqlCommond) (result : DBResult)
  /-- After the loop, with these commands of the queue still to go. -/
  | drain (rest : List SqlCommond)
  | drainReport (cmd : SqlCommond) (result : DBResult) (rest : List SqlCommond)
  | ended
  deriving DecidableEq, Repr

structure SqlThread where
  querysql : List SqlCommond
  bExit : Bool
  phase : Phase
  /-- The `notify_all` calls that are still to come. -/
  notifies : Nat
  deriving DecidableEq, Repr

def SqlThread.init : SqlThread := ⟨[], false, .test, 0⟩

structure DBService where
  count : Nat
  vecThread : Nat → SqlThread
  /-- The results not dispatched yet are the queue, and `temp` of `Update` is the batch. -/
  results : Mailbox (SqlCommond × DBResult)
  submitted : List SqlCommond
  /-- The commands that went to the database, with its answers. -/
  answered : List (SqlCommond × Reply)
  executed : List (SqlCommond × DBResult)
  /-- The callbacks that were called, with what. -/
  called : List (SqlCommond × DBResult)
  /-- The process went through a null pointer. -/
  crashed : Bool

def DBService.init (count : Nat) : DBService := ⟨count, fun _ => .init, ⟨[], [], []⟩, [], [], [], [], false⟩

def DBService.setThread (s : DBService) (i : Nat) (t : SqlThread) : DBService :=
  { s with vecThread := Function.update s.vecThread i t }

inductive Act where
  /-- `asynQuery` and `asynExcute`, up to the unlock. -/
  | submit (key : UInt64) (sql : String) (type : SqlCommondType) (func : Option Nat)
  | notify (i : Nat)
  /-- `close`, up to its `notify_all`. -/
  | close (i : Nat)
  /-- The next section of the worker; the reply is that to the command it executes, if it does. -/
  | worker (i : Nat) (reply : Reply)
  /-- A wake-up that nobody asked for. -/
  | wake (i : Nat)
  /-- `Update`, up to its unlock. -/
  | update
  /-- The next turn of the loop of `Update`. -/
  | dispatch
  deriving DecidableEq, Repr

/-- The thread of the key. -/
def DBService.indexOf (s : DBService) (key : UInt64) : Nat := key.toNat % s.count

def DBService.submit (s : DBService) (key : UInt64) (sql : String) (type : SqlCommondType) (func : Option Nat) : DBService :=
  let cmd : SqlCommond := ⟨s.submitted.length, key, sql, type, func⟩
  let t := s.vecThread (s.indexOf key)
  { s.setThread (s.indexOf key) { t with querysql := t.querysql ++ [cmd], notifies := t.notifies + 1 } with
    submitted := s.submitted ++ [cmd] }

/-- The worker executes a command and is then as `after` says. -/
def DBService.execute (s : DBService) (i : Nat) (cmd : SqlCommond) (reply : Reply) (after : DBResult → SqlThread) : DBService :=
  match resultOf cmd reply with
  | none => { s with answered := s.answered ++ [(cmd, reply)], crashed := true }
  | some result =>
    { s.setThread i (after result) with
      answered := s.answered ++ [(cmd, reply)]
      executed := s.executed ++ [(cmd, result)] }

/-- The next section of `ThreadFunction`; a waiting worker has none. -/
def DBService.work (s : DBService) (i : Nat) (reply : Reply) : Option DBService :=
  let t := s.vecThread i
  match t.phase with
  | .test => some (s.setThread i { t with phase := if t.bExit then .drain t.querysql else .look })
  | .look =>
    match t.querysql with
    | [] => some (s.setThread i { t with phase := .wait })
    | cmd :: rest => some (s.setThread i { t with querysql := rest, phase := .process cmd })
  | .wait => none
  | .process cmd => some (s.execute i cmd reply fun result => { t with phase := .report cmd result })
  | .report cmd result =>
    some { s.setThread i { t with phase := .test } with results := s.results.push (cmd, result) }
  | .drain [] => some (s.setThread i { t with phase := .ended })
  | .drain (cmd :: rest) => some (s.execute i cmd reply fun result => { t with phase := .drainReport cmd result rest })
  | .drainReport cmd result rest =>
    some { s.setThread i { t with phase := .drain rest } with results := s.results.push (cmd, result) }
  | .ended => none

/-- A waiting thread goes back to the test. -/
def SqlThread.woken (t : SqlThread) : SqlThread :=
  match t.phase with
  | .wait => { t with phase := .test }
  | _ => t

/-- A step of a process that is alive. -/
def DBService.next (s : DBService) : Act → Option DBService
  | .submit key sql type func => if s.indexOf key < s.count then some (s.submit key sql type func) else none
  | .notify i =>
    if i < s.count ∧ 0 < (s.vecThread i).notifies then
      some (s.setThread i { (s.vecThread i).woken with notifies := (s.vecThread i).notifies - 1 })
    else none
  | .close i =>
    if i < s.count then
      some (s.setThread i { s.vecThread i with bExit := true, notifies := (s.vecThread i).notifies + 1 })
    else none
  | .worker i reply => if i < s.count then s.work i reply else none
  | .wake i => if i < s.count then some (s.setThread i (s.vecThread i).woken) else none
  | .update => if s.results.batch = [] then some { s with results := s.results.take } else none
  | .dispatch =>
    match s.results.batch with
    | [] => none
    | (cmd, result) :: rest =>
      some { s with
        results := s.results.deliver (cmd, result) rest
        called := if cmd.func.isSome then s.called ++ [(cmd, result)] else s.called }

def step (s : DBService) (a : Act) : Option DBService := if s.crashed then none else s.next a

/-- Commands are submitted before their worker is closed. -/
def BeforeClose (s : DBService) : Act → Prop
  | .submit key _ _ _ => (s.vecThread (s.indexOf key)).bExit = false
  | _ => True

instance (s : DBService) : (a : Act) → Decidable (BeforeClose s a)
  | .submit _ _ _ _ => inferInstanceAs (Decidable (_ = false))
  | .notify _ | .close _ | .worker _ _ | .wake _ | .update | .dispatch => inferInstanceAs (Decidable True)

/-- A query that goes through has a stored result. -/
def Reply.Stores (reply : Reply) (cmd : SqlCommond) : Prop :=
  cmd.type = .sql_query → reply.mysql_real_query = true → reply.mysql_store_result.isSome = true

instance (reply : Reply) (cmd : SqlCommond) : Decidable (reply.Stores cmd) :=
  inferInstanceAs (Decidable (_ → _ → _))

/-- The command that the next section of the thread executes, if it does. -/
def SqlThread.executes (t : SqlThread) : Option SqlCommond :=
  match t.phase with
  | .process cmd => some cmd
  | .drain (cmd :: _) => some cmd
  | _ => none

/-- The query that the step executes has a stored result if it goes through. -/
def Stores (s : DBService) : Act → Prop
  | .worker i reply => ∀ cmd ∈ (s.vecThread i).executes, reply.Stores cmd
  | _ => True

instance (s : DBService) : (a : Act) → Decidable (Stores s a)
  | .worker _ _ => inferInstanceAs (Decidable (∀ cmd ∈ _, _))
  | .submit _ _ _ _ | .notify _ | .close _ | .wake _ | .update | .dispatch => inferInstanceAs (Decidable True)

/-- The stored result that was fetched from, with the row that was. -/
def DBResult.stored (result : DBResult) : Option MYSQL_RES :=
  result.pResult.map fun p => { p with rows := result.row.toList ++ p.rows }

/-- The result tells what the database answered to the command. -/
structure Own (cmd : SqlCommond) (reply : Reply) (result : DBResult) : Prop where
  succeeded : result.isSucce = reply.mysql_real_query
  err : result.err = if reply.mysql_real_query then "" else cmd.sql ++ "," ++ reply.mysql_error
  /-- A query that goes through has all the rows. -/
  stored : result.stored = if cmd.type = .sql_query ∧ reply.mysql_real_query = true then reply.mysql_store_result else none
  /-- The first row can be read by the names of the fields. -/
  cells : ∀ p, result.pResult = some p → p.fields.Nodup → result.rowData = p.fields.zip (result.row.getD [])

/-- The commands of the thread that are still to be executed, in order. -/
def SqlThread.pending (t : SqlThread) : List SqlCommond :=
  match t.phase with
  | .process cmd => cmd :: t.querysql
  | .drain rest => rest
  | .drainReport _ _ rest => rest
  | .ended => []
  | _ => t.querysql

/-- The command that is executed and not yet given to `OnGetResult`. -/
def SqlThread.reporting (t : SqlThread) : List (SqlCommond × DBResult) :=
  match t.phase with
  | .report cmd result => [(cmd, result)]
  | .drainReport cmd result _ => [(cmd, result)]
  | _ => []

/-- The thread has left its loop. -/
def Phase.closing : Phase → Prop
  | .drain _ | .drainReport _ _ _ | .ended => True
  | _ => False

/-- A thread leaves its loop only when it is closed, and does not wait for long with commands in its
queue. -/
structure SqlThread.Sound (t : SqlThread) : Prop where
  closed : t.phase.closing → t.bExit = true
  notified : t.phase = .wait → t.querysql ≠ [] → 0 < t.notifies

/-- The worker waits and nobody is about to wake it, or it has ended. -/
def SqlThread.Rests (t : SqlThread) : Prop := (t.phase = .wait ∧ t.notifies = 0) ∨ t.phase = .ended

/-- The command goes to thread `i`. -/
def At (n i : Nat) (cmd : SqlCommond) : Bool := cmd.key.toNat % n = i

/-- Thread `i` executes its commands in order, and gives them to `OnGetResult` in order. -/
structure Served (n i : Nat) (s : DBService) : Prop where
  sound : (s.vecThread i).Sound
  queued : (s.executed.filter (At n i ·.1)).map Prod.fst ++ (s.vecThread i).pending = s.submitted.filter (At n i)
  reported : s.executed.filter (At n i ·.1) = s.results.all.filter (At n i ·.1) ++ (s.vecThread i).reporting

structure Inv (n : Nat) (s : DBService) : Prop where
  count : s.count = n
  alive : s.crashed = false
  own : List.Forall₂ (fun a e => a.1 = e.1 ∧ Own a.1 a.2 e.2) s.answered s.executed
  served : ∀ i, Served n i s
  called : s.called = s.results.done.filter (·.1.func.isSome)
  ids : s.submitted.map SqlCommond.id = List.range s.submitted.length
  index : ∀ cmd ∈ s.submitted, cmd.key.toNat % n < n

section Results

variable {cmd : SqlCommond} {reply : Reply} {result : DBResult}

theorem foldl_setCell {cells fields : List (String × Option String)} (distinct : ((cells ++ fields).map Prod.fst).Nodup) :
    fields.foldl setCell cells = cells ++ fields := by
  induction fields generalizing cells with
  | nil => exact (List.append_nil cells).symm
  | cons field fields ih =>
    rw [List.append_cons] at distinct
    have before : ((cells ++ [field]).map Prod.fst).Nodup := by
      rw [List.map_append] at distinct
      exact (List.nodup_append'.1 distinct).1
    have new : setCell cells field = cells ++ [field] := by
      rw [List.map_append, List.nodup_append'] at before
      refine congrArg (· ++ [field]) (List.filter_eq_self.2 fun cell mem => decide_eq_true fun same => ?_)
      exact before.2.2 (List.mem_map_of_mem mem) (by rw [same]; exact List.mem_singleton_self _)
    rw [List.foldl_cons, new, ih distinct, List.append_assoc, List.singleton_append]

theorem map_fst_zip_sublist (fields : List String) (row : List (Option String)) : ((fields.zip row).map Prod.fst).Sublist fields := by
  induction fields generalizing row with
  | nil => exact List.Sublist.slnil
  | cons field fields ih =>
    cases row with
    | nil => exact List.nil_sublist _
    | cons cell row => exact (ih row).cons_cons field

/-- `GetResult` of a stored result: all of it is there, the first row apart. -/
theorem getResult_some (p : MYSQL_RES) : ∃ result, DBResult.init.GetResult (some p) = some result ∧ result.pResult.isSome = true ∧
    result.stored = some p ∧ result.err = "" ∧ result.isSucce = true ∧
    ∀ q, result.pResult = some q → q.fields.Nodup → result.rowData = q.fields.zip (result.row.getD []) := by
  obtain ⟨fields, rows⟩ := p
  cases rows with
  | nil =>
    refine ⟨_, rfl, rfl, rfl, rfl, rfl, fun q same _ => ?_⟩
    exact List.zip_nil_right.symm
  | cons row rows =>
    refine ⟨_, rfl, rfl, rfl, rfl, rfl, fun q same distinct => ?_⟩
    cases same
    refine foldl_setCell ?_
    show ((fields.zip row).map Prod.fst).Nodup
    exact distinct.sublist (map_fst_zip_sublist fields row)

/-- A command that does not end the process has its own result. -/
theorem resultOf_own (stores : reply.Stores cmd) : ∃ result, resultOf cmd reply = some result ∧ Own cmd reply result := by
  obtain ⟨through, stored, error⟩ := reply
  obtain ⟨id, key, sql, type, func⟩ := cmd
  cases type with
  | sql_exect =>
    cases through with
    | false => exact ⟨_, rfl, rfl, rfl, rfl, fun p same => by cases same⟩
    | true => exact ⟨_, rfl, rfl, rfl, rfl, fun p same => by cases same⟩
  | sql_query =>
    cases through with
    | false => exact ⟨_, rfl, rfl, rfl, rfl, fun p same => by cases same⟩
    | true =>
      obtain ⟨p, rfl⟩ := Option.isSome_iff_exists.1 (stores rfl rfl)
      obtain ⟨result, got, isSome, stored, err, succeeded, cells⟩ := getResult_some p
      refine ⟨result, ?_, succeeded, err, stored, cells⟩
      simp [resultOf, ProcessSql, syncQuery, got, isSome]

theorem resultOf_crashes (stores : ¬ reply.Stores cmd) : resultOf cmd reply = none := by
  obtain ⟨through, stored, error⟩ := reply
  obtain ⟨id, key, sql, type, func⟩ := cmd
  cases type with
  | sql_exect => exact absurd (fun other => by cases other) stores
  | sql_query =>
    cases through with
    | false => exact absurd (fun _ other => by cases other) stores
    | true =>
      cases stored with
      | none => rfl
      | some p => exact absurd (fun _ _ => rfl) stores

end Results

section Steps

variable {n i : Nat} {s u : DBService} {t : SqlThread} {cmd : SqlCommond} {reply : Reply} {result : DBResult} {a : Act}

theorem step_cases (next : step s a = some u) : s.crashed = false ∧ s.next a = some u := by
  rw [Db.step] at next
  split at next
  next => cases next
  next alive => exact ⟨Bool.eq_false_iff.2 alive, next⟩

theorem Inv.init : Inv n (.init n) where
  count := rfl
  alive := rfl
  own := .nil
  served _ := ⟨⟨False.elim, fun waits => by cases waits⟩, rfl, rfl⟩
  called := rfl
  ids := rfl
  index _ mem := by cases mem

theorem Inv.at_pending (inv : Inv n s) (mem : cmd ∈ (s.vecThread i).pending) : cmd.key.toNat % n = i := by
  have listed : cmd ∈ s.submitted.filter (At n i) := by
    rw [← (inv.served i).queued]
    exact List.mem_append_right _ mem
  exact of_decide_eq_true (List.mem_filter.1 listed).2

theorem Inv.at_reporting (inv : Inv n s) (mem : (cmd, result) ∈ (s.vecThread i).reporting) : cmd.key.toNat % n = i := by
  have listed : (cmd, result) ∈ s.executed.filter (At n i ·.1) := by
    rw [(inv.served i).reported]
    exact List.mem_append_right _ mem
  exact of_decide_eq_true (List.mem_filter.1 listed).2

/-- A section of one thread, which executes or reports commands of its own at most. -/
theorem Inv.section_of (inv : Inv n s) {answered : List (SqlCommond × Reply)} {executed : List (SqlCommond × DBResult)}
    {results : Mailbox (SqlCommond × DBResult)} (own : List.Forall₂ (fun a e => a.1 = e.1 ∧ Own a.1 a.2 e.2) answered executed)
    (sound : t.Sound) (queued : (executed.filter (At n i ·.1)).map Prod.fst ++ t.pending = s.submitted.filter (At n i))
    (reported : executed.filter (At n i ·.1) = results.all.filter (At n i ·.1) ++ t.reporting)
    (others : ∀ j, j ≠ i → executed.filter (At n j ·.1) = s.executed.filter (At n j ·.1) ∧
      results.all.filter (At n j ·.1) = s.results.all.filter (At n j ·.1)) (done : results.done = s.results.done) :
    Inv n { s.setThread i t with answered := answered, executed := executed, results := results } := by
  refine ⟨inv.count, inv.alive, own, fun j => ?_, done ▸ inv.called, inv.ids, inv.index⟩
  by_cases same : j = i
  · subst same
    have self : (s.setThread j t).vecThread j = t := Function.update_self ..
    refine ⟨?_, ?_, ?_⟩ <;> simp only [self]
    · exact sound
    · exact queued
    · exact reported
  · have other : (s.setThread i t).vecThread j = s.vecThread j := Function.update_of_ne same ..
    obtain ⟨sound, queued, reported⟩ := inv.served j
    refine ⟨?_, ?_, ?_⟩ <;> simp only [other, others j same]
    · exact sound
    · exact queued
    · exact reported

/-- The thread goes on with the same commands. -/
theorem Inv.silent (inv : Inv n s) (sound : t.Sound) (pending : t.pending = (s.vecThread i).pending)
    (reporting : t.reporting = (s.vecThread i).reporting) : Inv n (s.setThread i t) := by
  obtain ⟨-, queued, reported⟩ := inv.served i
  rw [← pending] at queued
  rw [← reporting] at reported
  exact inv.section_of inv.own sound queued reported (fun _ _ => ⟨rfl, rfl⟩) rfl

theorem filter_at_append {l : List (SqlCommond × DBResult)} (here : cmd.key.toNat % n = i) (j : Nat) :
    (l ++ [(cmd, result)]).filter (At n j ·.1) = l.filter (At n j ·.1) ++ if j = i then [(cmd, result)] else [] := by
  rw [List.filter_append, List.filter_singleton, At, here]
  by_cases same : i = j
  · simp [same]
  · simp [same, Ne.symm same]

/-- The thread executes its next command. -/
theorem Inv.execute (inv : Inv n s) {after : DBResult → SqlThread} (stores : reply.Stores cmd)
    (sound : ∀ result, (after result).Sound) (pending : ∀ result, (s.vecThread i).pending = cmd :: (after result).pending)
    (before : (s.vecThread i).reporting = []) (reporting : ∀ result, (after result).reporting = [(cmd, result)]) :
    Inv n (s.execute i cmd reply after) := by
  obtain ⟨result, has, own⟩ := resultOf_own stores
  rw [DBService.execute, has]
  specialize sound result
  specialize pending result
  specialize reporting result
  have here : cmd.key.toNat % n = i := inv.at_pending (by rw [pending]; exact List.mem_cons_self)
  obtain ⟨-, queued, reported⟩ := inv.served i
  rw [pending] at queued
  rw [before, List.append_nil] at reported
  refine inv.section_of (List.rel_append inv.own (.cons ⟨rfl, own⟩ .nil)) sound ?_ ?_ (fun j other => ⟨?_, rfl⟩) rfl
  · rw [filter_at_append here, if_pos rfl, List.map_append, List.append_assoc]
    exact queued
  · rw [filter_at_append here, if_pos rfl, reported, reporting]
    rfl
  · rw [filter_at_append here, if_neg other, List.append_nil]

/-- The thread gives a command to `OnGetResult`. -/
theorem Inv.push (inv : Inv n s) (sound : t.Sound) (pending : t.pending = (s.vecThread i).pending)
    (before : (s.vecThread i).reporting = [(cmd, result)]) (after : t.reporting = []) :
    Inv n { s.setThread i t with results := s.results.push (cmd, result) } := by
  have here : cmd.key.toNat % n = i := inv.at_reporting (by rw [before]; exact List.mem_singleton_self _)
  obtain ⟨-, queued, reported⟩ := inv.served i
  rw [← pending] at queued
  rw [before] at reported
  refine inv.section_of inv.own sound queued ?_ (fun j other => ⟨rfl, ?_⟩) rfl
  · rw [Mailbox.all_push, filter_at_append here, if_pos rfl, after, List.append_nil]
    exact reported
  · rw [Mailbox.all_push, filter_at_append here, if_neg other, List.append_nil]

/-- What the thread does next keeps the order. -/
theorem Inv.work (inv : Inv n s) (stores : ∀ cmd ∈ (s.vecThread i).executes, reply.Stores cmd) (next : s.work i reply = some u) :
    Inv n u := by
  have sound := (inv.served i).sound
  unfold DBService.work at next
  generalize same : s.vecThread i = t at next sound stores
  obtain ⟨querysql, bExit, phase, notifies⟩ := t
  cases phase with
  | test =>
    obtain rfl := Option.some.inj next
    refine inv.silent ⟨fun closing => ?_, fun waits => ?_⟩ ?_ ?_ <;> cases bExit <;>
      simp_all [Phase.closing, SqlThread.pending, SqlThread.reporting]
  | look =>
    cases querysql with
    | nil =>
      obtain rfl := Option.some.inj next
      exact inv.silent ⟨False.elim, fun _ some => absurd rfl some⟩ (by rw [same]; rfl) (by rw [same]; rfl)
    | cons cmd rest =>
      obtain rfl := Option.some.inj next
      exact inv.silent ⟨False.elim, fun waits => by cases waits⟩ (by rw [same]; rfl) (by rw [same]; rfl)
  | wait => cases next
  | process cmd =>
    obtain rfl := Option.some.inj next
    exact inv.execute (stores cmd rfl) (fun _ => ⟨False.elim, fun waits => by cases waits⟩) (fun _ => by rw [same]; rfl)
      (by rw [same]; rfl) fun _ => rfl
  | report cmd result =>
    obtain rfl := Option.some.inj next
    exact inv.push ⟨False.elim, fun waits => by cases waits⟩ (by rw [same]; rfl) (by rw [same]; rfl) rfl
  | drain rest =>
    cases rest with
    | nil =>
      obtain rfl := Option.some.inj next
      exact inv.silent ⟨fun _ => sound.closed trivial, fun waits => by cases waits⟩ (by rw [same]; rfl) (by rw [same]; rfl)
    | cons cmd rest =>
      obtain rfl := Option.some.inj next
      exact inv.execute (stores cmd rfl) (fun _ => ⟨fun _ => sound.closed trivial, fun waits => by cases waits⟩)
        (fun _ => by rw [same]; rfl) (by rw [same]; rfl) fun _ => rfl
  | drainReport cmd result rest =>
    obtain rfl := Option.some.inj next
    exact inv.push ⟨fun _ => sound.closed trivial, fun waits => by cases waits⟩ (by rw [same]; rfl) (by rw [same]; rfl) rfl
  | ended => cases next

theorem SqlThread.woken_sound (sound : t.Sound) : t.woken.Sound ∧ t.woken.pending = t.pending ∧
    t.woken.reporting = t.reporting ∧ t.woken.phase ≠ .wait := by
  obtain ⟨querysql, bExit, phase, notifies⟩ := t
  cases phase with
  | wait => exact ⟨⟨False.elim, fun waits => by cases waits⟩, rfl, rfl, fun waits => by cases waits⟩
  | test | look | process | report | drain | drainReport | ended => exact ⟨sound, rfl, rfl, fun waits => by cases waits⟩

/-- A submission goes to the end of the queue, while the thread is in its loop. -/
theorem Inv.submit (inv : Inv n s) {key : UInt64} (sql : String) (type : SqlCommondType) (func : Option Nat)
    (bound : s.indexOf key < s.count) (running : (s.vecThread (s.indexOf key)).bExit = false) :
    Inv n (s.submit key sql type func) := by
  have inside : ¬ (s.vecThread (s.indexOf key)).phase.closing := fun closing => by
    rw [(inv.served _).sound.closed closing] at running
    cases running
  have index : s.indexOf key = key.toNat % n := congrArg (key.toNat % ·) inv.count
  refine ⟨inv.count, inv.alive, inv.own, fun j => ?_, inv.called, ?_, fun cmd mem => ?_⟩
  · obtain ⟨sound, queued, reported⟩ := inv.served j
    by_cases same : j = s.indexOf key
    · subst same
      generalize there : s.vecThread (s.indexOf key) = t at inside sound queued reported
      obtain ⟨querysql, bExit, phase, notifies⟩ := t
      have self : (s.submit key sql type func).vecThread (s.indexOf key) =
          ⟨querysql ++ [⟨s.submitted.length, key, sql, type, func⟩], bExit, phase, notifies + 1⟩ := by
        simp [DBService.submit, DBService.setThread, there]
      refine ⟨⟨fun closing => ?_, fun _ _ => ?_⟩, ?_, ?_⟩ <;> rw [self]
      · rw [self] at closing
        exact absurd closing inside
      · exact Nat.succ_pos notifies
      · show _ = (s.submitted ++ [(⟨s.submitted.length, key, sql, type, func⟩ : SqlCommond)]).filter (At n (s.indexOf key))
        rw [List.filter_append, ← queued, List.filter_singleton, At, index, decide_eq_true rfl, List.append_assoc]
        cases phase with
        | test | look | wait | process | report => rfl
        | drain | drainReport | ended => exact absurd trivial inside
      · exact reported
    · have other : (s.submit key sql type func).vecThread j = s.vecThread j := Function.update_of_ne same ..
      refine ⟨?_, ?_, ?_⟩ <;> rw [other]
      · exact sound
      · show _ = (s.submitted ++ [(⟨s.submitted.length, key, sql, type, func⟩ : SqlCommond)]).filter (At n j)
        rw [List.filter_append, ← queued, List.filter_singleton, At, ← index, decide_eq_false (Ne.symm same)]
        exact (List.append_nil _).symm
      · exact reported
  · show (s.submitted ++ [_]).map SqlCommond.id = List.range (s.submitted ++ [_]).length
    rw [List.map_append, inv.ids, List.length_append, List.length_singleton, List.range_succ]
    rfl
  · rcases List.mem_append.1 mem with mem | mem
    · exact inv.index cmd mem
    · obtain rfl := List.mem_singleton.1 mem
      rw [← inv.count]
      exact bound

theorem Inv.step (inv : Inv n s) (early : BeforeClose s a) (stores : Stores s a) (next : step s a = some u) : Inv n u := by
  obtain ⟨-, next⟩ := step_cases next
  cases a with
  | submit key sql type func =>
    obtain ⟨bound, ⟨⟩⟩ := Option.ite_none_right_eq_some.1 next
    exact inv.submit sql type func bound early
  | notify i =>
    obtain ⟨-, ⟨⟩⟩ := Option.ite_none_right_eq_some.1 next
    obtain ⟨sound, pending, reporting, awake⟩ := SqlThread.woken_sound (inv.served i).sound
    exact inv.silent ⟨sound.closed, fun waits => absurd waits awake⟩ pending reporting
  | close i =>
    obtain ⟨-, ⟨⟩⟩ := Option.ite_none_right_eq_some.1 next
    exact inv.silent ⟨fun _ => rfl, fun _ _ => Nat.succ_pos _⟩ rfl rfl
  | worker i reply =>
    obtain ⟨-, next⟩ := Option.ite_none_right_eq_some.1 next
    exact inv.work stores next
  | wake i =>
    obtain ⟨-, ⟨⟩⟩ := Option.ite_none_right_eq_some.1 next
    obtain ⟨sound, pending, reporting, -⟩ := SqlThread.woken_sound (inv.served i).sound
    exact inv.silent sound pending reporting
  | update =>
    obtain ⟨used, ⟨⟩⟩ := Option.ite_none_right_eq_some.1 next
    refine ⟨inv.count, inv.alive, inv.own, fun j => ?_, inv.called, inv.ids, inv.index⟩
    obtain ⟨sound, queued, reported⟩ := inv.served j
    rw [← s.results.all_take used] at reported
    exact ⟨sound, queued, reported⟩
  | dispatch =>
    simp only [DBService.next] at next
    split at next
    · cases next
    · next cmd result rest batch =>
      obtain rfl := Option.some.inj next
      refine ⟨inv.count, inv.alive, inv.own, fun j => ?_, ?_, inv.ids, inv.index⟩
      · obtain ⟨sound, queued, reported⟩ := inv.served j
        rw [← s.results.all_deliver batch] at reported
        exact ⟨sound, queued, reported⟩
      · show (if cmd.func.isSome then s.called ++ [(cmd, result)] else s.called) =
          (s.results.done ++ [(cmd, result)]).filter (·.1.func.isSome)
        rw [inv.called, List.filter_append, List.filter_singleton]
        split <;> simp_all

theorem Inv.pending_of_rests (inv : Inv n s) (rests : (s.vecThread i).Rests) : (s.vecThread i).pending = [] := by
  have notified := (inv.served i).sound.notified
  rcases rests with ⟨waits, none⟩ | ended
  · unfold SqlThread.pending
    rw [waits]
    by_contra some
    have := notified waits some
    omega
  · unfold SqlThread.pending
    rw [ended]

theorem Inv.order (inv : Inv n s) (key : UInt64) :
    (s.executed.map Prod.fst).filter (·.key = key) <+: s.submitted.filter (·.key = key) := by
  have all : ∀ l : List SqlCommond, (l.filter (At n (key.toNat % n))).filter (·.key = key) = l.filter (·.key = key) := by
    intro l
    rw [List.filter_filter]
    refine List.filter_congr fun cmd _ => ?_
    by_cases same : cmd.key = key <;> simp [At, same]
  have queued := congrArg (List.filter (·.key = key)) (inv.served (key.toNat % n)).queued
  have mapped : (s.executed.filter (At n (key.toNat % n) ·.1)).map Prod.fst =
      (s.executed.map Prod.fst).filter (At n (key.toNat % n)) := by
    rw [List.filter_map]
    rfl
  rw [mapped, List.filter_append, all, all] at queued
  exact ⟨_, queued⟩

theorem Inv.nodup_submitted (inv : Inv n s) : s.submitted.Nodup := by
  apply List.Nodup.of_map SqlCommond.id
  rw [inv.ids]
  exact List.nodup_range

theorem Inv.once (inv : Inv n s) : (s.executed.map Prod.fst).Nodup := by
  rw [List.nodup_iff_count_le_one]
  intro cmd
  have same : (s.executed.map Prod.fst).count cmd = ((s.executed.map Prod.fst).filter (·.key = cmd.key)).count cmd :=
    (List.count_filter (by simp)).symm
  have most : (s.submitted.filter (·.key = cmd.key)).count cmd ≤ 1 :=
    List.nodup_iff_count_le_one.1 (inv.nodup_submitted.filter _) cmd
  have less := (inv.order cmd.key).sublist.count_le cmd
  omega

theorem Inv.mem_executed (inv : Inv n s) (rests : (s.vecThread (cmd.key.toNat % n)).Rests) (mem : cmd ∈ s.submitted) :
    cmd ∈ s.executed.map Prod.fst := by
  have queued := (inv.served (cmd.key.toNat % n)).queued
  rw [inv.pending_of_rests rests, List.append_nil] at queued
  have listed : cmd ∈ s.submitted.filter (At n (cmd.key.toNat % n)) := List.mem_filter.2 ⟨mem, decide_eq_true rfl⟩
  rw [← queued] at listed
  obtain ⟨e, there, rfl⟩ := List.mem_map.1 listed
  exact List.mem_map_of_mem (List.mem_filter.1 there).1

/-- A section of the worker, or a `notify_all` that it is owed. -/
def Work (i : Nat) (a : Act) : Prop := a = .notify i ∨ ∃ reply, a = .worker i reply

/-- A bound on what the worker can still do by itself. -/
def SqlThread.left (t : SqlThread) : Nat :=
  3 * t.notifies +
    match t.phase with
    | .wait => 4 * t.querysql.length
    | .look => 4 * t.querysql.length + 1
    | .test => 4 * t.querysql.length + 2
    | .report _ _ => 4 * t.querysql.length + 3
    | .process _ => 4 * t.querysql.length + 4
    | .drain rest => 2 * rest.length + 1
    | .drainReport _ _ rest => 2 * rest.length + 2
    | .ended => 0

/-- The same for the worker of a service; a process that has ended does nothing. -/
def DBService.left (s : DBService) (i : Nat) : Nat := if s.crashed then 0 else (s.vecThread i).left

theorem DBService.left_le : s.left i ≤ (s.vecThread i).left := by
  rw [DBService.left]
  split
  · exact Nat.zero_le _
  · exact Nat.le_refl _

theorem left_execute {after : DBResult → SqlThread} {bound : Nat} (less : ∀ result, (after result).left < bound) :
    (s.execute i cmd reply after).left i < bound := by
  rw [DBService.execute]
  cases resultOf cmd reply with
  | none =>
    show (if true then 0 else _ : Nat) < bound
    exact Nat.zero_lt_of_lt (less .init)
  | some result =>
    refine Nat.lt_of_le_of_lt DBService.left_le ?_
    show (Function.update s.vecThread i (after result) i).left < bound
    rw [Function.update_self]
    exact less result

theorem SqlThread.left_woken (t : SqlThread) : t.woken.left ≤ t.left + 2 := by
  obtain ⟨querysql, bExit, phase, notifies⟩ := t
  cases phase <;> simp only [SqlThread.left, SqlThread.woken] <;> omega

theorem left_work (next : s.work i reply = some u) : u.left i < (s.vecThread i).left := by
  unfold DBService.work at next
  generalize same : s.vecThread i = t at next
  obtain ⟨querysql, bExit, phase, notifies⟩ := t
  cases phase with
  | test =>
    obtain rfl := Option.some.inj next
    refine Nat.lt_of_le_of_lt DBService.left_le ?_
    cases bExit
    · simp [DBService.setThread, SqlThread.left]
    · simp [DBService.setThread, SqlThread.left]
      omega
  | look =>
    cases querysql with
    | nil =>
      obtain rfl := Option.some.inj next
      refine Nat.lt_of_le_of_lt DBService.left_le ?_
      simp [DBService.setThread, SqlThread.left]
    | cons cmd rest =>
      obtain rfl := Option.some.inj next
      refine Nat.lt_of_le_of_lt DBService.left_le ?_
      simp [DBService.setThread, SqlThread.left]
      omega
  | wait | ended => cases next
  | process =>
    obtain rfl := Option.some.inj next
    refine left_execute fun result => ?_
    simp [SqlThread.left]
  | report | drainReport =>
    obtain rfl := Option.some.inj next
    refine Nat.lt_of_le_of_lt DBService.left_le ?_
    simp [DBService.setThread, SqlThread.left]
  | drain rest =>
    cases rest with
    | nil =>
      obtain rfl := Option.some.inj next
      refine Nat.lt_of_le_of_lt DBService.left_le ?_
      simp [DBService.setThread, SqlThread.left]
    | cons cmd rest =>
      obtain rfl := Option.some.inj next
      refine left_execute fun result => ?_
      simp [SqlThread.left]
      omega

theorem left_step (work : Work i a) (next : step s a = some u) : u.left i < s.left i := by
  obtain ⟨alive, next⟩ := step_cases next
  have left : s.left i = (s.vecThread i).left := if_neg (Bool.eq_false_iff.1 alive)
  rw [left]
  rcases work with rfl | ⟨reply, rfl⟩
  · refine Nat.lt_of_le_of_lt DBService.left_le ?_
    obtain ⟨⟨-, owed⟩, ⟨⟩⟩ := Option.ite_none_right_eq_some.1 next
    have woken := (s.vecThread i).left_woken
    have same : (s.vecThread i).woken.notifies = (s.vecThread i).notifies := by
      unfold SqlThread.woken
      split <;> rfl
    simp only [DBService.setThread, Function.update_self]
    simp only [SqlThread.left, same] at woken ⊢
    omega
  · obtain ⟨-, next⟩ := Option.ite_none_right_eq_some.1 next
    exact left_work next

/-- A worker that does not rest can go on. -/
theorem exists_work (alive : s.crashed = false) (bound : i < s.count) (busy : ¬ (s.vecThread i).Rests) :
    ∃ a u, Work i a ∧ step s a = some u := by
  have steps : ∀ a, step s a = s.next a := fun a => if_neg (Bool.eq_false_iff.1 alive)
  by_cases waits : (s.vecThread i).phase = .wait
  · have owed : 0 < (s.vecThread i).notifies := Nat.pos_of_ne_zero fun none => busy (.inl ⟨waits, none⟩)
    exact ⟨.notify i, _, .inl rfl, (steps _).trans (if_pos ⟨bound, owed⟩)⟩
  · have enabled : (s.work i ⟨false, none, ""⟩).isSome := by
      unfold DBService.work
      generalize s.vecThread i = t at waits busy
      obtain ⟨querysql, bExit, phase, notifies⟩ := t
      cases phase with
      | wait => exact absurd rfl waits
      | ended => exact absurd (.inr rfl) busy
      | look => cases querysql <;> rfl
      | drain rest => cases rest <;> rfl
      | test | process | report | drainReport => rfl
    obtain ⟨u, next⟩ := Option.isSome_iff_exists.1 enabled
    exact ⟨.worker i _, u, .inr ⟨_, rfl⟩, (steps _).trans ((if_pos bound).trans next)⟩

/-- After the last worker has ended and `Update` has taken the results, only callbacks are left. -/
structure Closing (n : Nat) (executed : List (SqlCommond × DBResult)) (s : DBService) : Prop where
  inv : Inv n s
  ended : ∀ i, i < n → (s.vecThread i).phase = .ended
  queue : s.results.queue = []
  executed : s.executed = executed

theorem SqlThread.woken_ended (ended : t.phase = .ended) : t.woken = t := by
  unfold SqlThread.woken
  rw [ended]

theorem Closing.setThread {executed : List (SqlCommond × DBResult)} (closing : Closing n executed s)
    (inv : Inv n (s.setThread i t)) (ended : i < n → t.phase = .ended) : Closing n executed (s.setThread i t) := by
  refine ⟨inv, fun j bound => ?_, closing.queue, closing.executed⟩
  by_cases same : j = i
  · subst same
    have self : (s.setThread j t).vecThread j = t := Function.update_self ..
    rw [self]
    exact ended bound
  · have other : (s.setThread i t).vecThread j = s.vecThread j := Function.update_of_ne same ..
    rw [other]
    exact closing.ended j bound

theorem Closing.stores {executed : List (SqlCommond × DBResult)} (closing : Closing n executed s) (next : s.next a = some u) :
    Stores s a := by
  cases a with
  | worker i reply =>
    obtain ⟨bound, -⟩ := Option.ite_none_right_eq_some.1 next
    intro cmd executes
    rw [SqlThread.executes, closing.ended i (closing.inv.count ▸ bound)] at executes
    cases executes
  | submit | notify | close | wake | update | dispatch => trivial

theorem Closing.step {executed : List (SqlCommond × DBResult)} (closing : Closing n executed s) (early : BeforeClose s a)
    (next : step s a = some u) : Closing n executed u := by
  have inv := closing.inv.step early (closing.stores (step_cases next).2) next
  have count := closing.inv.count
  obtain ⟨-, next⟩ := step_cases next
  cases a with
  | submit key sql type func =>
    obtain ⟨bound, -⟩ := Option.ite_none_right_eq_some.1 next
    have ended := closing.ended _ (count ▸ bound)
    have closed := (closing.inv.served (s.indexOf key)).sound.closed (by rw [ended]; trivial)
    rw [BeforeClose, closed] at early
    cases early
  | notify i =>
    obtain ⟨⟨bound, -⟩, ⟨⟩⟩ := Option.ite_none_right_eq_some.1 next
    refine closing.setThread inv fun bound => ?_
    rw [SqlThread.woken_ended (closing.ended i bound)]
    exact closing.ended i bound
  | close i =>
    obtain ⟨-, ⟨⟩⟩ := Option.ite_none_right_eq_some.1 next
    exact closing.setThread inv fun bound => closing.ended i bound
  | worker i reply =>
    obtain ⟨bound, next⟩ := Option.ite_none_right_eq_some.1 next
    rw [DBService.work, closing.ended i (count ▸ bound)] at next
    cases next
  | wake i =>
    obtain ⟨-, ⟨⟩⟩ := Option.ite_none_right_eq_some.1 next
    refine closing.setThread inv fun bound => ?_
    rw [SqlThread.woken_ended (closing.ended i bound)]
    exact closing.ended i bound
  | update =>
    obtain ⟨-, ⟨⟩⟩ := Option.ite_none_right_eq_some.1 next
    exact ⟨inv, closing.ended, rfl, closing.executed⟩
  | dispatch =>
    simp only [DBService.next] at next
    split at next
    · cases next
    · obtain rfl := Option.some.inj next
      exact ⟨inv, closing.ended, closing.queue, closing.executed⟩

/-- With nothing left to dispatch, what was executed was dispatched, each command as often. -/
theorem Closing.count_done {executed : List (SqlCommond × DBResult)} (closing : Closing n executed s)
    (used : s.results.batch = []) (e : SqlCommond × DBResult) : s.results.done.count e = executed.count e := by
  have all : s.results.all = s.results.done := by
    rw [Mailbox.all, used, closing.queue, List.append_nil, List.append_nil]
  have reported := congrArg (List.count e) (closing.inv.served (e.1.key.toNat % n)).reported
  have filtered : ∀ l : List (SqlCommond × DBResult), (l.filter (At n (e.1.key.toNat % n) ·.1)).count e = l.count e :=
    fun l => List.count_filter (decide_eq_true rfl)
  rw [all, List.count_append, filtered, filtered, closing.executed] at reported
  by_cases bound : e.1.key.toNat % n < n
  · have none : (s.vecThread (e.1.key.toNat % n)).reporting = [] := by
      rw [SqlThread.reporting, closing.ended _ bound]
    rw [none, List.count_nil] at reported
    exact reported.symm
  · have absent : executed.count e = 0 := by
      apply List.count_eq_zero.2
      intro mem
      rw [← closing.executed] at mem
      have listed := (closing.inv.order e.1.key).subset
        (List.mem_filter.2 ⟨List.mem_map_of_mem mem, decide_eq_true rfl⟩)
      exact bound (closing.inv.index _ (List.mem_filter.1 listed).1)
    omega

/-- Each executed command with a callback was called with its result once, and nothing else was. -/
theorem Closing.count_called {executed : List (SqlCommond × DBResult)} (closing : Closing n executed s)
    (used : s.results.batch = []) (e : SqlCommond × DBResult) :
    s.called.count e = if e ∈ executed ∧ e.1.func.isSome then 1 else 0 := by
  rw [closing.inv.called]
  have done := closing.count_done used e
  have once : executed.Nodup := by
    rw [← closing.executed]
    exact closing.inv.once.of_map
  by_cases func : e.1.func.isSome
  · have filtered : (s.results.done.filter (·.1.func.isSome)).count e = s.results.done.count e := List.count_filter func
    rw [filtered, done]
    by_cases mem : e ∈ executed
    · rw [if_pos ⟨mem, func⟩, List.count_eq_one_of_mem once mem]
    · rw [if_neg fun both => mem both.1, List.count_eq_zero_of_not_mem mem]
  · rw [if_neg fun both => func both.2]
    exact List.count_eq_zero_of_not_mem fun mem => func (List.mem_filter.1 mem).2

/-- What the service promises in the state `s`. -/
structure Serves (n : Nat) (s : DBService) : Prop where
  /-- Commands with one key are executed in the order of their submission. -/
  order : ∀ key, (s.executed.map Prod.fst).filter (·.key = key) <+: s.submitted.filter (·.key = key)
  distinct : s.submitted.Nodup
  once : (s.executed.map Prod.fst).Nodup
  /-- Each has the result of what the database answered to it. -/
  own : List.Forall₂ (fun a e => a.1 = e.1 ∧ Own a.1 a.2 e.2) s.answered s.executed
  /-- A worker at rest has executed its commands. -/
  executed : ∀ cmd ∈ s.submitted, (s.vecThread (cmd.key.toNat % n)).Rests → cmd ∈ s.executed.map Prod.fst
  /-- A worker that does not rest goes on, and not for ever. -/
  goes : ∀ i, i < n → ¬ (s.vecThread i).Rests → ∃ a u, Work i a ∧ step s a = some u
  shrinks : ∀ i a u, Work i a → step s a = some u → u.left i < s.left i
  /-- After the workers have ended an `Update` calls the callback of every command, with its result. -/
  called : (∀ i, i < n → (s.vecThread i).phase = .ended) → ∀ u, step s .update = some u →
    ∀ bs t, Runs step BeforeClose u bs t → t.results.batch = [] →
      t.executed = s.executed ∧ ∀ e, t.called.count e = if e ∈ s.executed ∧ e.1.func.isSome then 1 else 0

theorem Inv.serves (inv : Inv n s) : Serves n s := by
  refine ⟨inv.order, inv.nodup_submitted, inv.once, inv.own, fun cmd mem rests => inv.mem_executed rests mem,
    fun i bound busy => ?_, fun i a u => left_step, fun ended u next bs t rest used => ?_⟩
  · exact exists_work inv.alive (inv.count ▸ bound) busy
  · have early : BeforeClose s .update := trivial
    have after := inv.step early trivial next
    obtain ⟨-, next⟩ := step_cases next
    obtain ⟨-, ⟨⟩⟩ := Option.ite_none_right_eq_some.1 next
    have start : Closing n s.executed { s with results := s.results.take } := ⟨after, ended, rfl, rfl⟩
    have closing := rest.invariant (Closing n s.executed) start fun _ _ _ closing early next => closing.step early next
    exact ⟨closing.executed, closing.count_called used⟩

theorem work_executes (executes : (s.vecThread i).executes = some cmd) :
    ∃ after, s.work i reply = some (s.execute i cmd reply after) := by
  unfold DBService.work
  generalize s.vecThread i = t at executes
  obtain ⟨querysql, bExit, phase, notifies⟩ := t
  cases phase with
  | process =>
    cases executes
    exact ⟨_, rfl⟩
  | drain rest =>
    cases rest with
    | nil => cases executes
    | cons =>
      cases executes
      exact ⟨_, rfl⟩
  | test | look | wait | report | drainReport | ended => cases executes

/-- A query without a stored result leaves its worker in the middle of it, for ever. -/
theorem Inv.crashes (inv : Inv n s) (stores : ¬ Stores s a) (next : Db.step s a = some u) : ¬ Serves n u := by
  obtain ⟨-, next⟩ := step_cases next
  cases a with
  | submit | notify | close | wake | update | dispatch => exact absurd trivial stores
  | worker i reply =>
    obtain ⟨bound, next⟩ := Option.ite_none_right_eq_some.1 next
    obtain ⟨cmd, executes, stores⟩ : ∃ cmd, (s.vecThread i).executes = some cmd ∧ ¬ reply.Stores cmd := by
      simpa [Stores] using stores
    have crash : ∀ after, s.execute i cmd reply after = { s with answered := s.answered ++ [(cmd, reply)], crashed := true } := by
      intro after
      rw [DBService.execute, resultOf_crashes stores]
    have busy : ¬ (s.vecThread i).Rests := by
      rintro (⟨waits, -⟩ | ended)
      · rw [SqlThread.executes, waits] at executes
        cases executes
      · rw [SqlThread.executes, ended] at executes
        cases executes
    obtain ⟨after, works⟩ := work_executes executes
    obtain rfl := Option.some.inj (works.symm.trans next)
    rw [crash]
    rintro ⟨-, -, -, -, -, goes, -, -⟩
    obtain ⟨a, v, -, on⟩ := goes i (inv.count ▸ bound) busy
    cases on

/-- **Every command is executed once, in the order of its key, with its own result, and its callback called once**, all along a
run, if and only if every query in it that goes through has a stored result. -/
theorem commands_executed_iff {as : List Act} (run : Runs step BeforeClose (.init n) as s) :
    (∀ bs t, bs <+: as → Runs step BeforeClose (.init n) bs t → Serves n t) ↔
      Runs step (fun t a => BeforeClose t a ∧ Stores t a) (.init n) as s :=
  run.always_and_iff (Inv n) .init (fun _ inv => inv.serves)
    (fun _ _ _ inv early stores next => inv.step early stores next) fun _ _ _ inv _ stores next => inv.crashes stores next

end Steps

/-- A query with one row, and a statement of the same key that is drained after the close. -/
def drained : List Act :=
  [.submit 3 "a" .sql_query (some 0), .worker 1 ⟨true, none, ""⟩, .worker 1 ⟨true, none, ""⟩,
    .worker 1 ⟨true, some ⟨["id"], [[some "7"]]⟩, ""⟩, .submit 3 "b" .sql_exect (some 1), .worker 1 ⟨true, none, ""⟩, .close 1,
    .worker 1 ⟨true, none, ""⟩, .worker 1 ⟨false, none, "gone"⟩, .worker 1 ⟨true, none, ""⟩]

def drainedResults : List (SqlCommond × DBResult) :=
  [(⟨0, 3, "a", .sql_query, some 0⟩, ⟨some ⟨["id"], []⟩, some [some "7"], [("id", some "7")], "", true⟩),
    (⟨1, 3, "b", .sql_exect, some 1⟩, ⟨none, none, [], "b,gone", false⟩)]

/-- The query has its row, and the statement its error. -/
theorem commands_executed_iff_drained : ∃ s, Runs step BeforeClose (.init 2) drained s ∧ s.executed = drainedResults ∧
    Runs step (fun t a => BeforeClose t a ∧ Stores t a) (.init 2) drained s ∧
    ∀ bs t, bs <+: drained → Runs step BeforeClose (.init 2) bs t → Serves 2 t := by
  have reached : ∃ s, Runs step (fun t a => BeforeClose t a ∧ Stores t a) (.init 2) drained s ∧ s.executed = drainedResults := by
    apply Runs.exists_of_decide
    decide
  obtain ⟨s, stored, executed⟩ := reached
  have run := stored.mono fun _ _ both => both.1
  exact ⟨s, run, executed, stored, (commands_executed_iff run).2 stored⟩

/-- A query that goes through without a result, as an update does, with another command behind it. -/
def unanswered : List Act := [.submit 0 "update" .sql_query (some 0), .submit 0 "insert" .sql_exect (some 1),
  .worker 0 ⟨true, none, ""⟩, .worker 0 ⟨true, none, ""⟩, .worker 0 ⟨true, none, ""⟩]

/-- The process ends there: the other command is never executed, and no callback is called. -/
theorem query_unanswered : ∃ s, Runs step BeforeClose (.init 1) unanswered s ∧
    (s.submitted.length = 2 ∧ s.executed = [] ∧ s.called = []) ∧ (∀ a, step s a = none) ∧ ¬ Serves 1 s := by
  have reached : ∃ s, Runs step BeforeClose (.init 1) unanswered s ∧
      (s.crashed = true ∧ s.submitted.length = 2 ∧ s.executed = [] ∧ s.called = []) ∧
        (s.vecThread 0).phase = .process ⟨0, 0, "update", .sql_query, some 0⟩ := by
    apply Runs.exists_of_decide
    decide
  obtain ⟨s, run, ⟨crashed, counts⟩, phase⟩ := reached
  have stuck : ∀ a, step s a = none := fun a => if_pos crashed
  refine ⟨s, run, counts, stuck, fun serves => ?_⟩
  have busy : ¬ (s.vecThread 0).Rests := by
    rintro (⟨waits, -⟩ | ended)
    · rw [phase] at waits
      cases waits
    · rw [phase] at ended
      cases ended
  obtain ⟨a, u, -, on⟩ := serves.goes 0 Nat.zero_lt_one busy
  rw [stuck a] at on
  cases on

end GameServer.Db

import GameServer.Lib.Run
import Mathlib.Data.List.Nodup
import Mathlib.Data.List.Perm.Subperm
import Mathlib.Data.List.ReduceOption
import Mathlib.Data.List.TakeWhile
import Mathlib.Logic.Function.Basic

/-!
# Prepared statements

`MysqlStmt` keeps one `Stmt` for each SQL text, with a queue of requests. `AsynExecuteQueryVariable`
prepares the text if need be and puts the request into the queue; each `Update` gives every statement one
turn, in which the request at the front is executed. A queue that has run empty keeps a null at its front,
and the next request takes its place.

Requests of one text are executed in order and none of them twice, in every run (`Inv`). The callback is
another matter: it is left out where the preparation fails, where a statement without a result set
succeeds, and where the result cannot be stored. `requests_answered` says that these are the only cases.
-/

namespace GameServer.Db

open GameServer.Lib

inductive FieldType where
  | long
  | datetime
  | string
  | var_string
  | blob
  | longlong
  | other
  deriving DecidableEq, Repr

/-- What the library answers while a text is prepared; a statement without a result set has no metadata. -/
structure Preparation where
  mysql_stmt_prepare : Int
  mysql_stmt_param_count : Nat
  mysql_stmt_result_metadata : Option (List (String × FieldType))
  deriving DecidableEq, Repr

/-- What it answers while a request is executed. -/
structure Execution where
  mysql_stmt_bind_param : Int
  mysql_stmt_execute : Int
  mysql_stmt_bind_result : Int
  mysql_stmt_store_result : Int
  mysql_stmt_fetch : Int
  deriving DecidableEq, Repr

/-- A request, with a number that tells it from the others. Of the parameters, which it owns, only their presence
counts; the callback is not null. -/
structure StmtExData where
  id : Nat
  sql : List Char
  param : Bool
  deriving DecidableEq, Repr

structure Stmt where
  m_numIn : Nat
  m_Result : Option (List (String × FieldType))
  m_Index : List (List Char × Nat)
  CircularQuerys : List (Option StmtExData)
  deriving DecidableEq, Repr

namespace Stmt

/-- `AsynExecuteQueryVariable` of one statement. -/
def push (s : Stmt) (temp : StmtExData) : Stmt :=
  if s.CircularQuerys = [none] then { s with CircularQuerys := [some temp] }
  else { s with CircularQuerys := s.CircularQuerys ++ [some temp] }

/-- The end of `update`: `front() = nullptr`, and what lies behind moves up. -/
def finish (s : Stmt) : Stmt :=
  match s.CircularQuerys with
  | [] => s
  | [_] => { s with CircularQuerys := [none] }
  | _ :: rest => { s with CircularQuerys := rest }

/-- `Execute`: whether the statement was executed, and what the callback was called with, if it was: the result, and
the answer of the first fetch. -/
def Execute (s : Stmt) (row : StmtExData) (e : Execution) : Bool × Option (Bool × Int) :=
  if row.param ∧ e.mysql_stmt_bind_param ≠ 0 then (false, some (false, -1))
  else if e.mysql_stmt_execute ≠ 0 then (true, some (false, -1))
  else
    match s.m_Result with
    | none => (true, none)
    | some fields =>
      if fields = [] then (true, none)
      else if e.mysql_stmt_bind_result ≠ 0 then (true, some (false, -1))
      else if e.mysql_stmt_store_result = 0 then (true, some (true, e.mysql_stmt_fetch))
      else (true, none)

/-- The requests that wait for their turn. -/
def waiting (s : Stmt) : List StmtExData := s.CircularQuerys.reduceOption

/-- A null stands in the queue only where it is otherwise empty. -/
def Shaped (s : Stmt) : Prop := s.CircularQuerys = [none] ∨ ∃ rows : List StmtExData, s.CircularQuerys = rows.map some

end Stmt

/-- The loop of `AnalyzeSql` over a text: the text without the names of its placeholders, and the names with the
numbers of theirs. `name` is what was read behind a question mark; no name at all is an `abort`. -/
def AnalyzeSql (index : Nat) : Option (List Char) → List Char → Option (List Char × List (List Char × Nat))
  | none, [] => some ([], [])
  | none, c :: text => (AnalyzeSql index (if c = '?' then some [] else none) text).map fun r => (c :: r.1, r.2)
  | some name, [] => if name = [] then none else some ([], [(name, index)])
  | some name, c :: text =>
    if c = ',' ∨ c = ' ' ∨ c = ')' then
      if name = [] then none
      else (AnalyzeSql (index + 1) none text).map fun r => (c :: r.1, (name, index) :: r.2)
    else AnalyzeSql index (some (name ++ [c])) text

/-- A `const char*` ends at the first null. -/
def c_str (sql : List Char) : List Char := sql.takeWhile fun c => c ≠ '\x00'

inductive Prepared where
  | aborted
  | failed
  | made (s : Stmt)
  deriving DecidableEq, Repr

/-- `PrepareQuery` of a text that has no statement yet. -/
def PrepareQuery (sql : List Char) (p : Preparation) : Prepared :=
  match AnalyzeSql 0 none sql with
  | none => .aborted
  | some (_, m_Index) =>
    if p.mysql_stmt_prepare ≠ 0 then .failed
    else
      match p.mysql_stmt_result_metadata with
      | none => .made ⟨p.mysql_stmt_param_count, none, m_Index, []⟩
      | some fields =>
        if ∃ f ∈ fields, f.2 = .other then .failed
        else .made ⟨p.mysql_stmt_param_count, if fields = [] then none else some fields, m_Index, []⟩

structure MysqlStmt where
  stmts : List Char → Option Stmt
  /-- The texts that have a statement. -/
  keys : List (List Char)
  /-- The statements an `Update` that is under way has still to come to. -/
  visiting : List (List Char)
  /-- What this `Update` will return. -/
  bhang : Bool
  aborted : Bool
  submitted : List StmtExData
  executed : List StmtExData
  /-- The callbacks that were called, with what. -/
  called : List (StmtExData × Bool × Int)

namespace MysqlStmt

def init : MysqlStmt := ⟨fun _ => none, [], [], true, false, [], [], []⟩

def setStmt (m : MysqlStmt) (sql : List Char) (s : Stmt) : MysqlStmt :=
  { m with stmts := Function.update m.stmts sql (some s) }

/-- The request is entered where its text has a statement. -/
def enqueue (m : MysqlStmt) (temp : StmtExData) : MysqlStmt :=
  match m.stmts temp.sql with
  | none => m
  | some s => m.setStmt temp.sql (s.push temp)

/-- `PrepareQuery`. -/
def prepare (m : MysqlStmt) (pSql : List Char) (p : Preparation) : MysqlStmt :=
  if (m.stmts pSql).isSome then m
  else
    match PrepareQuery pSql p with
    | .aborted => { m with aborted := true }
    | .failed => m
    | .made s => { m.setStmt pSql s with keys := pSql :: m.keys }

def AsynExecuteQueryVariable (m : MysqlStmt) (sql : List Char) (param : Bool) (p : Preparation) : MysqlStmt :=
  let temp : StmtExData := ⟨m.submitted.length, sql, param⟩
  let m := { m with submitted := m.submitted ++ [temp] }
  ((if (m.stmts sql).isSome then m else m.prepare (c_str sql) p)).enqueue temp

/-- What a callback submits. A text that has no statement would move the table under the iterator of `Update`. -/
def resubmit (m : MysqlStmt) (again : List Char × Bool) : Option MysqlStmt :=
  if (m.stmts again.1).isSome then some (m.AsynExecuteQueryVariable again.1 again.2 ⟨0, 0, none⟩) else none

def log (m : MysqlStmt) (row : StmtExData) (done : Bool × Option (Bool × Int)) : MysqlStmt :=
  { m with
    executed := if done.1 then m.executed ++ [row] else m.executed
    called := m.called ++ (done.2.map (Prod.mk row)).toList
    bhang := false }

/-- `it->second.update()`, where `again` is what the callback submits, if it is called. -/
def turn (m : MysqlStmt) (sql : List Char) (e : Execution) (again : List (List Char × Bool)) : Option MysqlStmt :=
  (m.stmts sql).bind fun s =>
    match s.CircularQuerys with
    | [] => some m
    | [none] => some m
    | none :: _ => some ({ m with bhang := false }.setStmt sql s.finish)
    | some row :: _ =>
      let done := s.Execute row e
      ((if done.2.isSome then again else []).foldlM resubmit (m.log row done)).bind fun m =>
        (m.stmts sql).map fun s => m.setStmt sql s.finish

inductive Act where
  | asynExecuteQueryVariable (sql : List Char) (param : Bool) (p : Preparation)
  /-- `Update` begins; `order` is how its iterator will go through the table. -/
  | update (order : List (List Char))
  /-- The next turn of this `Update`. -/
  | turn (e : Execution) (again : List (List Char × Bool))
  deriving DecidableEq, Repr

def step (m : MysqlStmt) : Act → Option MysqlStmt
  | .asynExecuteQueryVariable sql param p =>
    if m.aborted ∨ m.visiting ≠ [] then none else some (m.AsynExecuteQueryVariable sql param p)
  | .update order =>
    if m.aborted ∨ m.visiting ≠ [] ∨ ¬ order.Perm m.keys then none else some { m with visiting := order, bhang := true }
  | .turn e again =>
    match m.visiting with
    | [] => none
    | sql :: rest => { m with visiting := rest }.turn sql e again

/-- The requests of a text that wait for their turn. -/
def waiting (m : MysqlStmt) (sql : List Char) : List StmtExData := ((m.stmts sql).map Stmt.waiting).getD []

structure Answered (m : MysqlStmt) : Prop where
  atMostOnce : ∀ r, m.executed.count r ≤ 1
  inOrder : ∀ sql, ((m.executed.filter (·.sql = sql)).map StmtExData.id).Pairwise (· < ·)
  answered : ∀ r ∈ m.submitted, r ∉ m.waiting r.sql → (m.called.map Prod.fst).count r = 1

/-- The text can be prepared: it holds no null, every placeholder has a name, and the library accepts it, with a
result of known types. -/
def Prepares (sql : List Char) (p : Preparation) : Prop :=
  '\x00' ∉ sql ∧ (AnalyzeSql 0 none sql).isSome ∧ p.mysql_stmt_prepare = 0 ∧
    ∀ fields, p.mysql_stmt_result_metadata = some fields → ∀ f ∈ fields, f.2 ≠ .other

/-- The request fails before there is a result, or it has a result and that fails to be bound or is stored. -/
def Answers (s : Stmt) (row : StmtExData) (e : Execution) : Prop :=
  (row.param ∧ e.mysql_stmt_bind_param ≠ 0) ∨ e.mysql_stmt_execute ≠ 0 ∨
    (∃ fields, s.m_Result = some fields ∧ fields ≠ []) ∧ (e.mysql_stmt_bind_result ≠ 0 ∨ e.mysql_stmt_store_result = 0)

/-- The calls that lead to a callback, if they end a request. -/
def Answerable (m : MysqlStmt) : Act → Prop
  | .asynExecuteQueryVariable sql _ p => (m.stmts sql).isSome ∨ Prepares sql p
  | .update _ => True
  | .turn e _ => ∀ sql rest s row rows, m.visiting = sql :: rest → m.stmts sql = some s →
      s.CircularQuerys = some row :: rows → Answers s row e

/-- Every queue has its shape. -/
def AllShaped (m : MysqlStmt) : Prop := ∀ sql s, m.stmts sql = some s → s.Shaped

/-- What a submission does: the request is known, and it waits if its text has a statement now. -/
structure Enters (m : MysqlStmt) (temp : StmtExData) (accepted : Prop) (u : MysqlStmt) : Prop where
  shaped : u.AllShaped
  submitted : u.submitted = m.submitted ++ [temp]
  executed : u.executed = m.executed
  called : u.called = m.called
  waits : accepted → ∀ key, u.waiting key = m.waiting key ++ if key = temp.sql then [temp] else []
  refused : ¬ accepted → ∀ key, u.waiting key = m.waiting key

/-- The steps of one statement's turn that come after the callback. -/
def finishAt (m : MysqlStmt) (sql : List Char) : MysqlStmt :=
  match m.stmts sql with
  | none => m
  | some s => m.setStmt sql s.finish

section Queues

variable {s : Stmt} {row temp : StmtExData} {rows : List StmtExData}

theorem reduceOption_map_some (rows : List StmtExData) : (rows.map some).reduceOption = rows := by
  induction rows with
  | nil => rfl
  | cons row rows ih => rw [List.map_cons, List.reduceOption_cons_of_some, ih]

theorem shaped_push (shaped : s.Shaped) (temp : StmtExData) : (s.push temp).Shaped ∧ (s.push temp).waiting = s.waiting ++ [temp] := by
  rcases shaped with empty | ⟨rows, filled⟩
  · have queue : (s.push temp).CircularQuerys = [temp].map some := by rw [Stmt.push, if_pos empty]; rfl
    refine ⟨.inr ⟨[temp], queue⟩, ?_⟩
    rw [Stmt.waiting, queue, Stmt.waiting, empty]
    rfl
  · have notNull : s.CircularQuerys ≠ [none] := by
      rw [filled]
      cases rows with
      | nil => simp
      | cons row rows => simp
    have queue : (s.push temp).CircularQuerys = (rows ++ [temp]).map some := by
      rw [Stmt.push, if_neg notNull, List.map_append, ← filled]
      rfl
    refine ⟨.inr ⟨rows ++ [temp], queue⟩, ?_⟩
    rw [Stmt.waiting, queue, Stmt.waiting, filled, reduceOption_map_some, reduceOption_map_some]

/-- The turn of the request at the front has passed. -/
theorem finish_spec (busy : s.CircularQuerys = some row :: rows.map some) : s.finish.Shaped ∧ s.finish.waiting = rows := by
  unfold Stmt.finish Stmt.waiting Stmt.Shaped
  cases rows with
  | nil => rw [busy]; exact ⟨.inl rfl, rfl⟩
  | cons next rows => rw [busy]; exact ⟨.inr ⟨next :: rows, rfl⟩, reduceOption_map_some (next :: rows)⟩

theorem waiting_of_busy (busy : s.CircularQuerys = some row :: rows.map some) : s.waiting = row :: rows := by
  rw [Stmt.waiting, busy]
  exact reduceOption_map_some (row :: rows)

/-- Whether the callback submits to its own statement before or after the end of the turn makes no difference. -/
theorem push_finish (busy : s.CircularQuerys = some row :: rows.map some) (temp : StmtExData) :
    (s.push temp).CircularQuerys = some row :: (rows ++ [temp]).map some ∧ (s.push temp).finish = s.finish.push temp := by
  cases rows with
  | nil => simp [Stmt.push, Stmt.finish, busy]
  | cons next rows => simp [Stmt.push, Stmt.finish, busy]

end Queues

section Steps

variable {m u : MysqlStmt} {sql key : List Char} {param : Bool} {p : Preparation} {s : Stmt} {row temp : StmtExData}
  {rows : List StmtExData}

@[simp] theorem stmts_setStmt : (m.setStmt sql s).stmts = Function.update m.stmts sql (some s) := rfl

theorem waiting_setStmt : (m.setStmt sql s).waiting key = if key = sql then s.waiting else m.waiting key := by
  unfold waiting
  by_cases same : key = sql
  · simp [same]
  · simp [same]

theorem waiting_of_stmt (here : m.stmts sql = some s) : m.waiting sql = s.waiting := by
  simp [waiting, here]

theorem c_str_eq (plain : '\x00' ∉ sql) : c_str sql = sql := by
  refine List.takeWhile_eq_self_iff.2 fun c mem => ?_
  have other : c ≠ '\x00' := by
    rintro rfl
    exact plain mem
  simpa using other

theorem c_str_ne (null : '\x00' ∈ sql) : c_str sql ≠ sql := by
  intro same
  have passed := List.takeWhile_eq_self_iff.1 same _ null
  simp at passed

/-- A text is prepared if it can be, and then it has a statement with an empty queue. -/
theorem made_iff (plain : '\x00' ∉ sql) : (∃ s, PrepareQuery sql p = .made s) ↔ Prepares sql p := by
  unfold PrepareQuery Prepares
  split
  next aborted => simp [aborted]
  next read =>
    split
    next refused => simp [refused]
    next accepted =>
      rw [not_not] at accepted
      split
      next bare => simp [plain, read, accepted, bare]
      next fields result =>
        split
        next unknown =>
          obtain ⟨f, mem, other⟩ := unknown
          refine iff_of_false (by simp) ?_
          rintro ⟨-, -, -, known⟩
          exact known fields result f mem other
        next known =>
          refine iff_of_true ⟨_, rfl⟩ ⟨plain, by simp [read], accepted, ?_⟩
          rintro fields' result' f mem other
          rw [result] at result'
          cases result'
          exact known ⟨f, mem, other⟩

theorem waiting_of_made (made : PrepareQuery sql p = .made s) : s.CircularQuerys = [] := by
  unfold PrepareQuery at made
  split at made
  · cases made
  · split at made
    · cases made
    · split at made
      · cases made; rfl
      · split at made
        · cases made
        · cases made; rfl

theorem AllShaped.setStmt (all : m.AllShaped) (shaped : s.Shaped) : (m.setStmt sql s).AllShaped := by
  intro key s' here
  by_cases same : key = sql
  · subst same
    rw [stmts_setStmt, Function.update_self] at here
    cases here
    exact shaped
  · rw [stmts_setStmt, Function.update_of_ne same] at here
    exact all key s' here

/-- Preparing a text changes no queue. -/
theorem prepare_spec (all : m.AllShaped) (new : m.stmts key = none) : (m.prepare key p).AllShaped ∧
    (m.prepare key p).submitted = m.submitted ∧ (m.prepare key p).executed = m.executed ∧ (m.prepare key p).called = m.called ∧
    (m.prepare key p).waiting = m.waiting ∧
    ∀ sql, ((m.prepare key p).stmts sql).isSome ↔ (m.stmts sql).isSome ∨ (sql = key ∧ ∃ s, PrepareQuery key p = .made s) := by
  unfold prepare
  rw [new, if_neg (by simp)]
  split
  next result => exact ⟨all, rfl, rfl, rfl, rfl, fun sql => by simp [result]⟩
  next result => exact ⟨all, rfl, rfl, rfl, rfl, fun sql => by simp [result]⟩
  next s result =>
    have empty := waiting_of_made result
    refine ⟨all.setStmt (.inr ⟨[], empty⟩), rfl, rfl, rfl, ?_, ?_⟩
    · funext sql
      refine waiting_setStmt.trans ?_
      split
      next same => rw [same, waiting, new, Stmt.waiting, empty]; rfl
      next => rfl
    · intro sql
      by_cases same : sql = key
      · simp [same, result]
      · simp [same]

theorem enqueue_spec (all : m.AllShaped) : (m.enqueue temp).AllShaped ∧
    (m.enqueue temp).submitted = m.submitted ∧ (m.enqueue temp).executed = m.executed ∧ (m.enqueue temp).called = m.called ∧
    ∀ key, (m.enqueue temp).waiting key = m.waiting key ++ if key = temp.sql ∧ (m.stmts temp.sql).isSome then [temp] else [] := by
  unfold enqueue
  cases here : m.stmts temp.sql with
  | none => exact ⟨all, rfl, rfl, rfl, fun key => by simp⟩
  | some s =>
    obtain ⟨shaped, pushed⟩ := shaped_push (all _ s here) temp
    refine ⟨all.setStmt shaped, rfl, rfl, rfl, fun key => ?_⟩
    rw [waiting_setStmt]
    split
    next same => simp [same, pushed, waiting_of_stmt here]
    next other => simp [other]

theorem asyn_spec (sql : List Char) (param : Bool) (p : Preparation) (all : m.AllShaped) : Enters m ⟨m.submitted.length, sql, param⟩ ((m.stmts sql).isSome ∨ Prepares sql p)
    (m.AsynExecuteQueryVariable sql param p) := by
  let m' : MysqlStmt := { m with submitted := m.submitted ++ [⟨m.submitted.length, sql, param⟩] }
  let m'' := if (m'.stmts sql).isSome then m' else m'.prepare (c_str sql) p
  have ready : m''.AllShaped ∧ m''.submitted = m'.submitted ∧ m''.executed = m.executed ∧ m''.called = m.called ∧
      m''.waiting = m.waiting ∧ ((m''.stmts sql).isSome ↔ (m.stmts sql).isSome ∨ Prepares sql p) := by
    by_cases known : (m.stmts sql).isSome
    · have same : m'' = m' := if_pos known
      rw [same]
      exact ⟨all, rfl, rfl, rfl, rfl, iff_of_true known (.inl known)⟩
    have same : m'' = m'.prepare (c_str sql) p := if_neg known
    by_cases plain : '\x00' ∈ sql
    · have refused : ¬ ((m.stmts sql).isSome ∨ Prepares sql p) := by
        rintro (had | prepares)
        · exact known had
        · exact prepares.1 plain
      have other := c_str_ne plain
      cases cut : m'.stmts (c_str sql) with
      | some s =>
        have same : m'' = m' := same.trans (if_pos (by simp [cut]))
        rw [same]
        exact ⟨all, rfl, rfl, rfl, rfl, iff_of_false known refused⟩
      | none =>
        obtain ⟨shaped, submitted, executed, called, waiting, isSome⟩ := prepare_spec (p := p) (m := m') all cut
        rw [same]
        refine ⟨shaped, submitted, executed, called, waiting, ?_⟩
        rw [isSome]
        exact iff_of_false (not_or.2 ⟨known, fun made => other made.1.symm⟩) refused
    · have whole := c_str_eq plain
      have none' : m'.stmts sql = none := by simpa using known
      obtain ⟨shaped, submitted, executed, called, waiting, isSome⟩ := prepare_spec (p := p) (m := m') all none'
      rw [same, whole]
      refine ⟨shaped, submitted, executed, called, waiting, ?_⟩
      rw [isSome, made_iff plain]
      simp [m']
  obtain ⟨shaped, submitted, executed, called, waiting, accepts⟩ := ready
  obtain ⟨shaped', submitted', executed', called', waiting'⟩ := enqueue_spec shaped
  refine ⟨shaped', submitted'.trans submitted, executed'.trans executed, called'.trans called, ?_, ?_⟩
  · intro accepted key
    refine (waiting' key).trans ?_
    simp [waiting, accepts.2 accepted]
  · intro refused key
    refine (waiting' key).trans ?_
    have missing := mt accepts.1 refused
    simp [waiting, missing]

/-! ### The turns -/

/-- The statement whose turn it is, while its request is executed. -/
def Busy (m : MysqlStmt) (sql : List Char) (row : StmtExData) (rows : List StmtExData) : Prop :=
  ∃ s, m.stmts sql = some s ∧ s.CircularQuerys = some row :: rows.map some

theorem finishAt_eq (here : m.stmts sql = some s) : m.finishAt sql = m.setStmt sql s.finish := by
  simp [finishAt, here]

theorem isSome_finishAt : ((m.finishAt sql).stmts key).isSome = (m.stmts key).isSome := by
  cases here : m.stmts sql with
  | none => simp [finishAt, here]
  | some s =>
    rw [finishAt_eq here, stmts_setStmt]
    by_cases same : key = sql
    · simp [same, here]
    · rw [Function.update_of_ne same]

/-- A submission of the callback, made after the end of the turn. -/
theorem enqueue_finishAt (busy : Busy m sql row rows) : (∃ rows', Busy (m.enqueue temp) sql row rows') ∧
    (m.enqueue temp).finishAt sql = (m.finishAt sql).enqueue temp := by
  obtain ⟨s, here, queue⟩ := busy
  cases there : m.stmts temp.sql with
  | none =>
    have missing : (m.finishAt sql).stmts temp.sql = none := by
      have isNone : ((m.finishAt sql).stmts temp.sql).isSome = (m.stmts temp.sql).isSome := isSome_finishAt
      rw [there] at isNone
      simpa using isNone
    have first : m.enqueue temp = m := by simp [enqueue, there]
    have second : (m.finishAt sql).enqueue temp = m.finishAt sql := by simp [enqueue, missing]
    rw [first, second]
    exact ⟨⟨rows, s, here, queue⟩, rfl⟩
  | some t =>
    have first : m.enqueue temp = m.setStmt temp.sql (t.push temp) := by simp [enqueue, there]
    rw [first, finishAt_eq here]
    by_cases same : temp.sql = sql
    · obtain rfl : t = s := by rw [same, here] at there; exact (Option.some.inj there).symm
      obtain ⟨queue', commute⟩ := push_finish queue temp
      refine ⟨⟨_, t.push temp, by simp [same], queue'⟩, ?_⟩
      simp [finishAt, enqueue, setStmt, same, commute]
    · refine ⟨⟨rows, s, by simp [Function.update_of_ne (Ne.symm same), here], queue⟩, ?_⟩
      simp [finishAt, enqueue, setStmt, Function.update_of_ne (Ne.symm same), Function.update_of_ne same, here, there,
        Function.update_comm same]

theorem resubmit_finishAt {again : List Char × Bool} (busy : Busy m sql row rows) (next : m.resubmit again = some u) :
    (∃ rows', Busy u sql row rows') ∧ (m.finishAt sql).resubmit again = some (u.finishAt sql) := by
  unfold resubmit at next ⊢
  rw [isSome_finishAt]
  split at next
  next known =>
    cases next
    rw [if_pos known]
    let m' : MysqlStmt := { m with submitted := m.submitted ++ [⟨m.submitted.length, again.1, again.2⟩] }
    have plain : m.AsynExecuteQueryVariable again.1 again.2 ⟨0, 0, none⟩ = m'.enqueue ⟨m.submitted.length, again.1, again.2⟩ := by
      simp [AsynExecuteQueryVariable, known, m']
    have after : (m.finishAt sql).AsynExecuteQueryVariable again.1 again.2 ⟨0, 0, none⟩
        = (m'.finishAt sql).enqueue ⟨m.submitted.length, again.1, again.2⟩ := by
      obtain ⟨s, here, -⟩ := busy
      have here' : m'.stmts sql = some s := here
      have known' : ((m.setStmt sql s.finish).stmts again.1).isSome := by
        rw [← finishAt_eq here, isSome_finishAt]
        exact known
      rw [finishAt_eq here, finishAt_eq here', AsynExecuteQueryVariable, if_pos known']
      rfl
    obtain ⟨busy', commute⟩ := enqueue_finishAt (m := m') busy
    rw [plain, after, commute]
    exact ⟨busy', rfl⟩
  next => cases next

/-- What the callback submits may be seen as submitted when the turn is over. -/
theorem resubmits_finishAt {again : List (List Char × Bool)} (busy : Busy m sql row rows)
    (next : again.foldlM resubmit m = some u) : (∃ s, u.stmts sql = some s) ∧
      again.foldlM resubmit (m.finishAt sql) = some (u.finishAt sql) := by
  induction again generalizing m rows with
  | nil =>
    cases next
    obtain ⟨s, here, -⟩ := busy
    exact ⟨⟨s, here⟩, rfl⟩
  | cons first again ih =>
    rw [List.foldlM_cons] at next
    obtain ⟨v, first', next⟩ := Option.bind_eq_some_iff.1 next
    obtain ⟨⟨rows', busy'⟩, commute⟩ := resubmit_finishAt busy first'
    obtain ⟨here, result⟩ := ih busy' next
    refine ⟨here, ?_⟩
    rw [List.foldlM_cons, commute]
    exact result

theorem turn_cases {e : Execution} {again : List (List Char × Bool)} (all : m.AllShaped) (next : m.turn sql e again = some u) :
    (∃ s, m.stmts sql = some s ∧ s.waiting = [] ∧ u = m) ∨
    ∃ (s : Stmt) (row : StmtExData) (rows : List StmtExData), m.stmts sql = some s ∧ s.CircularQuerys = some row :: rows.map some ∧
      (if (s.Execute row e).2.isSome then again else []).foldlM resubmit ((m.log row (s.Execute row e)).finishAt sql) = some u := by
  obtain ⟨s, here, next⟩ := Option.bind_eq_some_iff.1 next
  rcases all sql s here with empty | ⟨rows, filled⟩
  · simp only [empty] at next
    cases next
    exact .inl ⟨s, here, by rw [Stmt.waiting, empty]; rfl, rfl⟩
  · cases rows with
    | nil =>
      rw [List.map_nil] at filled
      simp only [filled] at next
      cases next
      exact .inl ⟨s, here, by rw [Stmt.waiting, filled]; rfl, rfl⟩
    | cons row rows =>
      rw [List.map_cons] at filled
      simp only [filled] at next
      obtain ⟨v, inside, next⟩ := Option.bind_eq_some_iff.1 next
      obtain ⟨t, here', rfl⟩ := Option.map_eq_some_iff.1 next
      obtain ⟨-, outside⟩ := resubmits_finishAt (m := m.log row (s.Execute row e)) ⟨s, here, filled⟩ inside
      exact .inr ⟨s, row, rows, here, filled, outside.trans (congrArg some (finishAt_eq here'))⟩

theorem finished_spec {done : Bool × Option (Bool × Int)} (all : m.AllShaped) (here : m.stmts sql = some s)
    (queue : s.CircularQuerys = some row :: rows.map some) : ((m.log row done).finishAt sql).AllShaped ∧
      m.waiting sql = row :: rows ∧ ∀ key, ((m.log row done).finishAt sql).waiting key = if key = sql then rows else m.waiting key := by
  obtain ⟨shaped, rest⟩ := finish_spec queue
  have here' : (m.log row done).stmts sql = some s := here
  rw [finishAt_eq here']
  refine ⟨AllShaped.setStmt (m := m.log row done) all shaped, (waiting_of_stmt here).trans (waiting_of_busy queue), ?_⟩
  intro key
  rw [waiting_setStmt, rest]
  rfl

theorem log_finishAt (m : MysqlStmt) (row : StmtExData) (sql : List Char) (done : Bool × Option (Bool × Int)) :
    ((m.log row done).finishAt sql).submitted = m.submitted ∧
    ((m.log row done).finishAt sql).executed = (if done.1 then m.executed ++ [row] else m.executed) ∧
    ((m.log row done).finishAt sql).called = m.called ++ (done.2.map (Prod.mk row)).toList := by
  unfold finishAt
  split
  · exact ⟨rfl, rfl, rfl⟩
  · exact ⟨rfl, rfl, rfl⟩

/-- Where the callback is called. -/
theorem answers_iff {e : Execution} : (s.Execute row e).2.isSome ↔ Answers s row e := by
  unfold Stmt.Execute Answers
  split
  next failed => exact iff_of_true rfl (.inl failed)
  next bound =>
    split
    next failed => exact iff_of_true rfl (.inr (.inl failed))
    next executed =>
      split
      next none' => simp [bound, executed, none']
      next fields result =>
        split
        next empty => simp [bound, executed, result, empty]
        next filled =>
          split
          next failed => simp [result, filled, failed]
          next bound' =>
            split
            next stored => simp [result, filled, stored]
            next lost => simp [bound, executed, bound', lost]

/-! ### The invariant -/

/-- What holds in every run: the requests of one text that were executed and those that wait stand in the order in
which they were submitted. -/
structure Inv (m : MysqlStmt) : Prop where
  shaped : m.AllShaped
  ordered : ∀ sql, ((m.executed.filter (·.sql = sql) ++ m.waiting sql).map StmtExData.id).Pairwise (· < ·)
  own : ∀ sql, ∀ r ∈ m.waiting sql, r.sql = sql
  knownWaiting : ∀ sql, ∀ r ∈ m.waiting sql, r ∈ m.submitted
  knownExecuted : ∀ r ∈ m.executed, r ∈ m.submitted
  knownCalled : ∀ c ∈ m.called, c.1 ∈ m.submitted
  numbered : ∀ r ∈ m.submitted, r.id < m.submitted.length

/-- A request waits, or its callback has been called. -/
def Settled (m : MysqlStmt) : Prop :=
  ∀ r ∈ m.submitted, (m.called.map Prod.fst).count r + (m.waiting r.sql).count r = 1

theorem Inv.init : Inv init := by
  refine ⟨?_, ?_, ?_, ?_, ?_, ?_, ?_⟩ <;> simp [MysqlStmt.init, waiting, AllShaped]

theorem Inv.once (inv : Inv m) (sql : List Char) : (m.executed.filter (·.sql = sql) ++ m.waiting sql).Nodup := by
  refine List.Nodup.of_map StmtExData.id ?_
  exact (inv.ordered sql).imp fun lt => lt.ne

theorem Inv.inOrder (inv : Inv m) (sql : List Char) : ((m.executed.filter (·.sql = sql)).map StmtExData.id).Pairwise (· < ·) := by
  have ordered := inv.ordered sql
  rw [List.map_append] at ordered
  exact (List.pairwise_append.1 ordered).1

/-- The new request is behind all others. -/
theorem Inv.enters {accepted : Prop} (inv : Inv m) (enters : Enters m ⟨m.submitted.length, sql, param⟩ accepted u) : Inv u := by
  have older : ∀ r ∈ m.submitted, r ∈ u.submitted := fun r mem => by
    rw [enters.submitted]
    exact List.mem_append_left _ mem
  have waits : ∀ key, u.waiting key = m.waiting key ∨ key = sql ∧ u.waiting key = m.waiting key ++ [⟨m.submitted.length, sql, param⟩] := by
    intro key
    by_cases taken : accepted
    · have added := enters.waits taken key
      by_cases same : key = sql
      · rw [if_pos same] at added
        exact .inr ⟨same, added⟩
      · rw [if_neg same, List.append_nil] at added
        exact .inl added
    · exact .inl (enters.refused taken key)
  refine ⟨enters.shaped, ?_, ?_, ?_, ?_, ?_, ?_⟩
  · intro key
    rw [enters.executed]
    rcases waits key with same | ⟨-, added⟩
    · rw [same]
      exact inv.ordered key
    · rw [added, ← List.append_assoc, List.map_append]
      refine List.pairwise_append.2 ⟨inv.ordered key, List.pairwise_singleton _ _, ?_⟩
      intro i memI j memJ
      obtain ⟨r, mem, rfl⟩ := List.mem_map.1 memI
      obtain rfl : j = m.submitted.length := by simpa using memJ
      rcases List.mem_append.1 mem with mem | mem
      · exact inv.numbered r (inv.knownExecuted r (List.mem_of_mem_filter mem))
      · exact inv.numbered r (inv.knownWaiting key r mem)
  · intro key r mem
    rcases waits key with same | ⟨rfl, added⟩
    · rw [same] at mem
      exact inv.own key r mem
    · rw [added] at mem
      rcases List.mem_append.1 mem with mem | mem
      · exact inv.own key r mem
      · rw [List.mem_singleton.1 mem]
  · intro key r mem
    rcases waits key with same | ⟨rfl, added⟩
    · rw [same] at mem
      exact older r (inv.knownWaiting key r mem)
    · rw [added] at mem
      rcases List.mem_append.1 mem with mem | mem
      · exact older r (inv.knownWaiting key r mem)
      · rw [enters.submitted]
        exact List.mem_append_right _ mem
  · rw [enters.executed]
    exact fun r mem => older r (inv.knownExecuted r mem)
  · rw [enters.called]
    exact fun c mem => older c.1 (inv.knownCalled c mem)
  · rw [enters.submitted, List.length_append, List.length_singleton]
    intro r mem
    rcases List.mem_append.1 mem with mem | mem
    · exact (inv.numbered r mem).trans (Nat.lt_succ_self _)
    · rw [List.mem_singleton.1 mem]
      exact Nat.lt_succ_self _

/-- A turn takes the first request of the queue away, whether it was executed or not. -/
theorem Inv.finished {done : Bool × Option (Bool × Int)} (inv : Inv m) (here : m.stmts sql = some s)
    (queue : s.CircularQuerys = some row :: rows.map some) : Inv ((m.log row done).finishAt sql) := by
  obtain ⟨shaped, front, waiting⟩ := finished_spec inv.shaped here queue
  obtain ⟨submitted, executed, called⟩ := log_finishAt m row sql done
  have first : row ∈ m.waiting sql := by rw [front]; exact List.mem_cons_self
  have fewer : ∀ key, ∀ r ∈ ((m.log row done).finishAt sql).waiting key, r ∈ m.waiting key := by
    intro key r mem
    rw [waiting] at mem
    split at mem
    next same => rw [same, front]; exact List.mem_cons_of_mem _ mem
    next => exact mem
  refine ⟨shaped, ?_, fun key r mem => inv.own key r (fewer key r mem), ?_, ?_, ?_, ?_⟩
  · intro key
    have before := inv.ordered key
    rw [waiting key]
    by_cases same : key = sql
    · subst same
      rw [if_pos rfl, executed]
      rw [front] at before
      split
      · rw [List.filter_append, List.filter_cons_of_pos (by simpa using inv.own key row first), List.filter_nil, List.append_assoc]
        exact before
      · exact before.sublist (((List.Sublist.refl _).append (List.sublist_cons_self _ _)).map _)
    · rw [if_neg same, executed]
      split
      · have other : row.sql ≠ key := by
          rw [inv.own sql row first]
          exact Ne.symm same
        rw [List.filter_append, List.filter_cons_of_neg (by simpa using other), List.filter_nil, List.append_nil]
        exact before
      · exact before
  · intro key r mem
    rw [submitted]
    exact inv.knownWaiting key r (fewer key r mem)
  · intro r mem
    rw [submitted]
    rw [executed] at mem
    split at mem
    · rcases List.mem_append.1 mem with mem | mem
      · exact inv.knownExecuted r mem
      · rw [List.mem_singleton.1 mem]
        exact inv.knownWaiting sql row first
    · exact inv.knownExecuted r mem
  · intro c mem
    rw [submitted]
    rw [called] at mem
    rcases List.mem_append.1 mem with mem | mem
    · exact inv.knownCalled c mem
    · obtain ⟨answer, -, rfl⟩ := Option.map_eq_some_iff.1 (Option.mem_toList.1 mem)
      exact inv.knownWaiting sql row first
  · rw [submitted]
    exact inv.numbered

theorem resubmit_spec {again : List Char × Bool} (all : m.AllShaped) (next : m.resubmit again = some u) :
    Enters m ⟨m.submitted.length, again.1, again.2⟩ True u := by
  unfold resubmit at next
  split at next
  next known =>
    cases next
    have enters := asyn_spec again.1 again.2 ⟨0, 0, none⟩ all
    exact { enters with waits := fun _ => enters.waits (.inl known), refused := fun not => absurd trivial not }
  next => cases next

theorem Inv.resubmits {again : List (List Char × Bool)} (inv : Inv m) (next : again.foldlM resubmit m = some u) : Inv u := by
  refine foldlM_keeps Inv ?_ inv next
  intro m first u inv next
  exact inv.enters (resubmit_spec inv.shaped next)

theorem Inv.step {a : Act} (inv : Inv m) (next : step m a = some u) : Inv u := by
  cases a with
  | asynExecuteQueryVariable sql param p =>
    simp only [MysqlStmt.step] at next
    split at next
    · cases next
    · cases next
      exact inv.enters (asyn_spec sql param p inv.shaped)
  | update order =>
    simp only [MysqlStmt.step] at next
    split at next
    · cases next
    · cases next
      exact { inv with }
  | turn e again =>
    simp only [MysqlStmt.step] at next
    split at next
    · cases next
    next sql rest _ =>
      have inv' : Inv { m with visiting := rest } := { inv with }
      rcases turn_cases inv'.shaped next with ⟨-, -, -, rfl⟩ | ⟨s, row, rows, here, queue, next⟩
      · exact inv'
      · exact (inv'.finished here queue).resubmits next

/-! ### The callbacks -/

theorem Settled.enters (inv : Inv m) (settled : Settled m) (enters : Enters m ⟨m.submitted.length, sql, param⟩ True u) : Settled u := by
  intro r mem
  rw [enters.called, enters.waits trivial]
  rw [enters.submitted] at mem
  have others : ∀ r ∈ m.submitted, r ≠ ⟨m.submitted.length, sql, param⟩ := by
    rintro r mem rfl
    exact (inv.numbered _ mem).ne rfl
  rcases List.mem_append.1 mem with mem | mem
  · have counted := settled r mem
    rw [List.count_append]
    have notNew : ∀ key, List.count r (if key = sql then [(⟨m.submitted.length, sql, param⟩ : StmtExData)] else []) = 0 := by
      intro key
      split
      · exact List.count_eq_zero.2 fun mem' => others r mem (List.mem_singleton.1 mem')
      · rfl
    rw [notNew, Nat.add_zero]
    exact counted
  · obtain rfl := List.mem_singleton.1 mem
    have notCalled : (m.called.map Prod.fst).count ⟨m.submitted.length, sql, param⟩ = 0 := by
      refine List.count_eq_zero.2 fun mem => ?_
      obtain ⟨c, mem, same⟩ := List.mem_map.1 mem
      exact others _ (inv.knownCalled c mem) same
    have notWaiting : (m.waiting sql).count ⟨m.submitted.length, sql, param⟩ = 0 :=
      List.count_eq_zero.2 fun mem => others _ (inv.knownWaiting sql _ mem) rfl
    rw [notCalled, if_pos rfl, List.count_append, notWaiting]
    simp

theorem Settled.resubmits {again : List (List Char × Bool)} (inv : Inv m) (settled : Settled m)
    (next : again.foldlM resubmit m = some u) : Settled u := by
  have both : Inv u ∧ Settled u := by
    refine foldlM_keeps (fun m => Inv m ∧ Settled m) ?_ ⟨inv, settled⟩ next
    rintro m first u ⟨inv, settled⟩ next
    have enters := resubmit_spec inv.shaped next
    exact ⟨inv.enters enters, settled.enters inv enters⟩
  exact both.2

theorem Settled.finished {done : Bool × Option (Bool × Int)} (inv : Inv m) (settled : Settled m) (here : m.stmts sql = some s)
    (queue : s.CircularQuerys = some row :: rows.map some) (answers : done.2.isSome) : Settled ((m.log row done).finishAt sql) := by
  obtain ⟨-, front, waiting⟩ := finished_spec inv.shaped here queue
  obtain ⟨submitted, -, called⟩ := log_finishAt m row sql done
  obtain ⟨answer, answered⟩ := Option.isSome_iff_exists.1 answers
  have first : row.sql = sql := inv.own sql row (by rw [front]; exact List.mem_cons_self)
  intro r mem
  rw [submitted] at mem
  have counted := settled r mem
  rw [called, waiting, answered, Option.map_some, Option.toList_some, List.map_append, List.count_append, List.map_singleton]
  by_cases at_r : r.sql = sql
  · rw [if_pos at_r]
    rw [at_r, front, List.count_cons] at counted
    rw [List.count_singleton]
    dsimp only
    omega
  · have other : row ≠ r := by
      rintro rfl
      exact at_r first
    rw [if_neg at_r, List.count_singleton, if_neg (by simpa using other)]
    exact counted

theorem Answered.of_settled (inv : Inv m) (settled : Settled m) : Answered m := by
  refine ⟨?_, inv.inOrder, ?_⟩
  · intro r
    have once := (List.nodup_append.1 (inv.once r.sql)).1
    have le := List.nodup_iff_count_le_one.1 once r
    rwa [List.count_filter (by simp)] at le
  · intro r mem passed
    have counted := settled r mem
    rw [List.count_eq_zero.2 passed] at counted
    exact counted

theorem Settled.step {a : Act} (inv : Inv m) (settled : Settled m) (answerable : Answerable m a) (next : step m a = some u) :
    Settled u := by
  cases a with
  | asynExecuteQueryVariable sql param p =>
    simp only [MysqlStmt.step] at next
    split at next
    · cases next
    · cases next
      have enters := asyn_spec sql param p inv.shaped
      exact settled.enters inv { enters with waits := fun _ => enters.waits answerable, refused := fun not => absurd trivial not }
  | update order =>
    simp only [MysqlStmt.step] at next
    split at next
    · cases next
    · cases next
      exact settled
  | turn e again =>
    simp only [MysqlStmt.step] at next
    split at next
    · cases next
    next sql rest visiting =>
      have inv' : Inv { m with visiting := rest } := { inv with }
      rcases turn_cases inv'.shaped next with ⟨-, -, -, rfl⟩ | ⟨s, row, rows, here, queue, next⟩
      · exact settled
      · have answers := answerable sql rest s row _ visiting here queue
        have settled' : Settled { m with visiting := rest } := settled
        exact (settled'.finished inv' here queue (answers_iff.2 answers)).resubmits (inv'.finished here queue) next

/-- A call outside the condition leaves a request behind that nobody will answer. -/
theorem not_answered {a : Act} (inv : Inv m) (settled : Settled m) (not : ¬ Answerable m a) (next : step m a = some u) :
    ¬ Answered u := by
  cases a with
  | asynExecuteQueryVariable sql param p =>
    simp only [MysqlStmt.step] at next
    split at next
    · cases next
    · cases next
      have enters := asyn_spec sql param p inv.shaped
      intro answered
      have new : ∀ r ∈ m.submitted, r ≠ ⟨m.submitted.length, sql, param⟩ := by
        rintro r mem rfl
        exact (inv.numbered _ mem).ne rfl
      have called := answered.answered ⟨m.submitted.length, sql, param⟩ (by rw [enters.submitted]; simp) (by
        rw [enters.refused not]
        exact fun mem => new _ (inv.knownWaiting sql _ mem) rfl)
      rw [enters.called, List.count_eq_zero.2 (fun mem => ?_)] at called
      · cases called
      · obtain ⟨c, mem, same⟩ := List.mem_map.1 mem
        exact new _ (inv.knownCalled c mem) same
  | update order => exact absurd trivial not
  | turn e again =>
    simp only [MysqlStmt.step] at next
    split at next
    · cases next
    next sql rest visiting =>
      have inv' : Inv { m with visiting := rest } := { inv with }
      simp only [Answerable] at not
      push Not at not
      obtain ⟨sql', rest', s', row', rows', visiting', here', queue', silent⟩ := not
      rw [visiting] at visiting'
      cases visiting'
      rcases turn_cases inv'.shaped next with ⟨s, here, empty, rfl⟩ | ⟨s, row, rows, here, queue, next⟩
      · rw [here'] at here
        cases here
        simp [Stmt.waiting, queue'] at empty
      · rw [here'] at here
        cases here
        rw [queue'] at queue
        cases queue
        have none' : (s'.Execute row' e).2 = none := by
          have notSome := mt answers_iff.1 silent
          simpa using notSome
        simp only [none', Option.isSome_none, Bool.false_eq_true, if_false, List.foldlM_nil] at next
        cases next
        obtain ⟨-, front, waits⟩ := finished_spec inv'.shaped here' queue'
        obtain ⟨submitted, -, called⟩ := log_finishAt { m with visiting := rest } row' sql (s'.Execute row' e)
        have first : row' ∈ waiting { m with visiting := rest } sql := by rw [front]; exact List.mem_cons_self
        have at_sql := inv'.own sql row' first
        have mem := inv'.knownWaiting sql row' first
        have passed : row' ∉ rows := by
          have once := (List.nodup_append.1 (inv'.once sql)).2.1
          rw [front] at once
          exact (List.nodup_cons.1 once).1
        intro answered
        have one := answered.answered row' (by rw [submitted]; exact mem) (by rw [waits, if_pos at_sql]; exact passed)
        rw [called, none', Option.map_none, Option.toList_none, List.append_nil] at one
        have counted := settled row' mem
        have waited : 0 < (m.waiting row'.sql).count row' := by
          rw [at_sql]
          exact List.count_pos_iff.2 first
        dsimp only at one
        omega

/-- **Which requests are answered.** In every run no request is executed twice and those of one text are executed in
the order of their submission; and every request whose turn has passed, or whose preparation has failed, has its
callback called exactly once, in all states of a run, if and only if all calls of the run are `Answerable`. -/
theorem requests_answered {as : List Act} (run : Runs step (fun _ _ => True) init as m) :
    (∀ bs u, bs <+: as → Runs step (fun _ _ => True) init bs u → Answered u) ↔ Runs step Answerable init as m := by
  refine run.always_iff (fun m => Inv m ∧ Settled m) ⟨.init, ?_⟩ ?_ ?_ ?_
  · intro r mem
    cases mem
  · rintro m ⟨inv, settled⟩
    exact .of_settled inv settled
  · rintro m a u ⟨inv, settled⟩ answerable next
    exact ⟨inv.step next, settled.step inv answerable next⟩
  · rintro m a u ⟨inv, settled⟩ not next
    exact not_answered inv settled not next

/-- A result whose callback submits again, and two requests that fail. -/
def answering : List Act :=
  [.asynExecuteQueryVariable ['s', ' ', '?', 'a'] true ⟨0, 1, some [("a", .long)]⟩, .asynExecuteQueryVariable ['d'] false ⟨0, 0, none⟩,
    .update [['d'], ['s', ' ', '?', 'a']], .turn ⟨0, 1, 0, 0, 0⟩ [], .turn ⟨0, 0, 0, 0, 0⟩ [(['s', ' ', '?', 'a'], true)],
    .update [['d'], ['s', ' ', '?', 'a']], .turn ⟨0, 0, 0, 0, 0⟩ [], .turn ⟨0, 0, 1, 0, 0⟩ []]

def checkAnswerable (m : MysqlStmt) : Act → Bool
  | .asynExecuteQueryVariable sql _ p =>
    (m.stmts sql).isSome || (decide ('\x00' ∉ sql) && (AnalyzeSql 0 none sql).isSome && decide (p.mysql_stmt_prepare = 0) &&
      p.mysql_stmt_result_metadata.all fun fields => fields.all fun f => decide (f.2 ≠ .other))
  | .update _ => true
  | .turn e _ => (m.visiting.head?.bind m.stmts).all fun s => (s.CircularQuerys.head?.join).all fun row => (s.Execute row e).2.isSome

theorem answerable_of_check {a : Act} (checked : checkAnswerable m a = true) : Answerable m a := by
  cases a with
  | asynExecuteQueryVariable sql param p =>
    simp only [checkAnswerable, Bool.or_eq_true, Bool.and_eq_true, decide_eq_true_eq] at checked
    refine checked.imp_right ?_
    rintro ⟨⟨⟨plain, named⟩, accepted⟩, known⟩
    refine ⟨plain, named, accepted, fun fields result f mem => ?_⟩
    rw [result, Option.all_some, List.all_eq_true] at known
    exact of_decide_eq_true (known f mem)
  | update order => trivial
  | turn e again =>
    intro sql rest s row rows visiting here queue
    simp only [checkAnswerable, visiting, List.head?_cons, Option.bind_some, here, Option.all_some, queue, Option.join_some] at checked
    exact answers_iff.1 checked

theorem requests_answered_again : ∃ m, Runs step (fun _ _ => True) init answering m ∧
    m.called.map Prod.snd = [(false, -1), (true, 0), (false, -1)] ∧
    ∀ bs u, bs <+: answering → Runs step (fun _ _ => True) init bs u → Answered u := by
  have checked : (runChecked step checkAnswerable init answering).any
      (fun m => decide (m.called.map Prod.snd = [(false, -1), (true, 0), (false, -1)])) = true := by
    decide
  obtain ⟨m, run, called⟩ := Runs.exists_of_checked Answerable (fun _ _ => answerable_of_check) checked
  have run' : Runs step (fun _ _ => True) init answering m := run.mono fun _ _ _ => trivial
  exact ⟨m, run', of_decide_eq_true called, (requests_answered run').2 run⟩

/-- A statement without a result that goes through: nobody is told. -/
theorem request_unanswered : ∃ m, Runs step (fun _ _ => True) init
      [.asynExecuteQueryVariable ['d'] false ⟨0, 0, none⟩, .update [['d']], .turn ⟨0, 0, 0, 0, 0⟩ []] m ∧ ¬ Answered m := by
  obtain ⟨m, run, r, mem, passed, silent⟩ : ∃ m, Runs step (fun _ _ => True) init
      [.asynExecuteQueryVariable ['d'] false ⟨0, 0, none⟩, .update [['d']], .turn ⟨0, 0, 0, 0, 0⟩ []] m ∧
      ∃ r ∈ m.submitted, r ∉ m.waiting r.sql ∧ (m.called.map Prod.fst).count r ≠ 1 := by
    apply Runs.exists_of_decide
    decide
  exact ⟨m, run, fun answered => silent (answered.answered r mem passed)⟩

/-- In every run, whatever becomes of the callbacks. -/
theorem executed_in_order {as : List Act} (run : Runs step (fun _ _ => True) init as m) (sql : List Char) :
    ((m.executed.filter (·.sql = sql)).map StmtExData.id).Pairwise (· < ·) := by
  have inv : Inv m := run.invariant Inv .init fun m a u inv _ next => inv.step next
  exact inv.inOrder sql

end Steps

end MysqlStmt

end GameServer.Db

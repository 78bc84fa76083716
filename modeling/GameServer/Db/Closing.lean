import GameServer.Db.Statements

/-!
# Closing the statements

`Close` goes through the table of the statements, frees the requests that are queued for each of them and closes it. The inner loop
advances the iterator of the table and not the one of the queue, so a queue with anything in it, be it the null of a queue that has
run empty, ends in undefined behaviour: a null request, the end of the table, or a request that is freed again. In every reachable
state `Close` does what it is for if and only if all queues are empty (`close_iff`).

That `Close` closes the connection at the end is left out.
-/

namespace GameServer.Db

open GameServer.Lib

namespace MysqlStmt

/-- What is called before `Close`. A text may be prepared without a request; `SyncExecuteQueryVariable` does no more to the table. -/
inductive Call where
  | prepareQuery (pSql : List Char) (p : Preparation)
  | act (a : Act)
  deriving DecidableEq, Repr

def call (m : MysqlStmt) : Call → Option MysqlStmt
  | .prepareQuery pSql p => if m.aborted ∨ m.visiting ≠ [] then none else some (m.prepare (c_str pSql) p)
  | .act a => step m a

/-- What `Close` has done so far: the requests it has freed, and the texts whose result or statement it has given up. -/
structure Closing where
  freed : List StmtExData
  results : List (List Char)
  closed : List (List Char)
  deriving DecidableEq

/-- The inner loop, from the place of `it` on: `itt` stays at the front of the queue. It has no result where a null request, the end
of the table or a request that is already freed is used. -/
def freeQuerys (owner : List Char) (queue : List (Option StmtExData)) :
    List (List Char) → List StmtExData → Option (List (List Char) × List StmtExData)
  | [], _ => none
  | sql :: its, freed =>
    if sql = owner ∧ queue = [] then some (sql :: its, freed)
    else queue.head?.join.bind fun row => if row ∈ freed then none else freeQuerys owner queue its (freed ++ [row])

/-- The outer loop. -/
def closeLoop (m : MysqlStmt) : Nat → List (List Char) → Closing → Option Closing
  | _, [], c => some c
  | 0, _ :: _, _ => none
  | turns + 1, sql :: its, c =>
    (m.stmts sql).bind fun s =>
      (freeQuerys sql s.CircularQuerys (sql :: its) c.freed).bind fun (its, freed) =>
        match its with
        | [] => none
        | now :: its => m.closeLoop turns its ⟨freed, if s.m_Result.isSome then c.results ++ [sql] else c.results, c.closed ++ [now]⟩

/-- `Close`, where the iterator goes through the table in this order. -/
def Close (m : MysqlStmt) (order : List (List Char)) : Option Closing := m.closeLoop order.length order ⟨[], [], []⟩

/-- The statement has memory for its results. -/
def hasResult (m : MysqlStmt) (sql : List Char) : Bool := (m.stmts sql).any (·.m_Result.isSome)

/-- Everything is released once: every queued request, every result and every statement. -/
structure Released (m : MysqlStmt) (c : Closing) : Prop where
  requests : c.freed.Perm (m.keys.flatMap m.waiting)
  results : c.results.Perm (m.keys.filter m.hasResult)
  statements : c.closed.Perm m.keys

/-- The texts are those that have a statement, each once. -/
structure Keyed (m : MysqlStmt) : Prop where
  once : m.keys.Nodup
  mem_iff : ∀ sql, sql ∈ m.keys ↔ (m.stmts sql).isSome

section Keys

variable {m u : MysqlStmt} {sql : List Char} {s : Stmt}

theorem Keyed.init : Keyed init := ⟨.nil, fun sql => by simp [MysqlStmt.init]⟩

/-- Only the table and its texts count. -/
theorem Keyed.congr (keyed : Keyed m) (keys : u.keys = m.keys) (isSome : ∀ sql, (u.stmts sql).isSome = (m.stmts sql).isSome) : Keyed u := by
  constructor
  · rw [keys]
    exact keyed.once
  · intro sql
    rw [keys, isSome]
    exact keyed.mem_iff sql

theorem Keyed.setStmt (keyed : Keyed m) (known : (m.stmts sql).isSome) : Keyed (m.setStmt sql s) := by
  refine keyed.congr rfl fun key => ?_
  rw [stmts_setStmt]
  by_cases same : key = sql
  · rw [same, Function.update_self, known]
    rfl
  · rw [Function.update_of_ne same]

theorem Keyed.prepare (keyed : Keyed m) (pSql : List Char) (p : Preparation) : Keyed (m.prepare pSql p) := by
  unfold MysqlStmt.prepare
  split
  · exact keyed
  · next new =>
    split
    · exact keyed.congr rfl fun _ => rfl
    · exact keyed
    · next s _ =>
      constructor
      · exact List.nodup_cons.2 ⟨fun mem => new ((keyed.mem_iff pSql).1 mem), keyed.once⟩
      · intro key
        show key ∈ pSql :: m.keys ↔ (Function.update m.stmts pSql (some s) key).isSome
        rw [List.mem_cons, keyed.mem_iff]
        by_cases same : key = pSql
        · rw [same, Function.update_self]
          exact iff_of_true (.inl rfl) rfl
        · rw [Function.update_of_ne same]
          exact or_iff_right same

theorem Keyed.enqueue (keyed : Keyed m) (temp : StmtExData) : Keyed (m.enqueue temp) := by
  unfold MysqlStmt.enqueue
  split
  · exact keyed
  · next s here => exact keyed.setStmt (by rw [here]; rfl)

theorem Keyed.asyn (keyed : Keyed m) (sql : List Char) (param : Bool) (p : Preparation) :
    Keyed (m.AsynExecuteQueryVariable sql param p) := by
  have noted : Keyed { m with submitted := m.submitted ++ [⟨m.submitted.length, sql, param⟩] } := keyed.congr rfl fun _ => rfl
  apply Keyed.enqueue
  split
  · exact noted
  · exact noted.prepare _ p

theorem Keyed.resubmits (keyed : Keyed m) {again : List (List Char × Bool)} (next : again.foldlM resubmit m = some u) : Keyed u := by
  refine foldlM_keeps Keyed (fun m first v keyed next => ?_) keyed next
  obtain ⟨-, entered⟩ := Option.ite_none_right_eq_some.1 next
  obtain rfl := Option.some.inj entered
  exact keyed.asyn first.1 first.2 _

theorem Keyed.turn (keyed : Keyed m) {e : Execution} {again : List (List Char × Bool)} (next : m.turn sql e again = some u) : Keyed u := by
  obtain ⟨s, here, next⟩ := Option.bind_eq_some_iff.1 next
  split at next
  · obtain rfl := Option.some.inj next
    exact keyed
  · obtain rfl := Option.some.inj next
    exact keyed
  · obtain rfl := Option.some.inj next
    have known : (m.stmts sql).isSome := by rw [here]; rfl
    have noted : Keyed { m with bhang := false } := keyed.congr rfl fun _ => rfl
    exact noted.setStmt known
  · next row _ _ =>
    obtain ⟨v, submitted, next⟩ := Option.bind_eq_some_iff.1 next
    obtain ⟨t, there, rfl⟩ := Option.map_eq_some_iff.1 next
    have logged : Keyed (m.log row (s.Execute row e)) := keyed.congr rfl fun _ => rfl
    exact (logged.resubmits submitted).setStmt (by rw [there]; rfl)

theorem Keyed.step {a : Act} (keyed : Keyed m) (next : step m a = some u) : Keyed u := by
  cases a with
  | asynExecuteQueryVariable sql param p =>
    obtain ⟨-, entered⟩ := Option.ite_none_left_eq_some.1 next
    obtain rfl := Option.some.inj entered
    exact keyed.asyn sql param p
  | update order =>
    obtain ⟨-, begun⟩ := Option.ite_none_left_eq_some.1 next
    obtain rfl := Option.some.inj begun
    exact keyed.congr rfl fun _ => rfl
  | turn e again =>
    simp only [MysqlStmt.step] at next
    split at next
    · cases next
    · next rest _ =>
      have here : Keyed { m with visiting := rest } := keyed.congr rfl fun _ => rfl
      exact here.turn next

theorem Keyed.call {a : Call} (keyed : Keyed m) (next : call m a = some u) : Keyed u := by
  cases a with
  | prepareQuery pSql p =>
    obtain ⟨-, prepared⟩ := Option.ite_none_left_eq_some.1 next
    obtain rfl := Option.some.inj prepared
    exact keyed.prepare _ p
  | act a => exact keyed.step next

end Keys

section Close

variable {m : MysqlStmt} {sql : List Char} {order : List (List Char)} {c : Closing} {turns : Nat}

/-- A queue with anything in it is not passed. -/
theorem freeQuerys_eq_none {queue : List (Option StmtExData)} (some' : queue ≠ []) (its : List (List Char)) :
    freeQuerys sql queue its [] = none := by
  cases its with
  | nil => rfl
  | cons key its =>
    rw [freeQuerys, if_neg fun both => some' both.2]
    cases front : queue.head?.join with
    | none => rfl
    | some row =>
      rw [Option.bind_some, if_neg List.not_mem_nil, List.nil_append]
      cases its with
      | nil => rfl
      | cons key its =>
        rw [freeQuerys, if_neg fun both => some' both.2, front]
        exact if_pos (List.mem_singleton.2 rfl)

/-- The loop passes the statements whose queue is empty. -/
theorem closeLoop_of_empty (enough : order.length ≤ turns)
    (empty : ∀ sql ∈ order, ∃ s, m.stmts sql = some s ∧ s.CircularQuerys = []) :
    m.closeLoop turns order c = some ⟨c.freed, c.results ++ order.filter m.hasResult, c.closed ++ order⟩ := by
  induction order generalizing turns c with
  | nil =>
    rw [closeLoop, List.filter_nil, List.append_nil, List.append_nil]
  | cons sql order ih =>
    obtain ⟨turns, rfl⟩ : ∃ n, turns = n + 1 := Nat.exists_eq_succ_of_ne_zero (Nat.ne_of_gt (Nat.lt_of_lt_of_le (Nat.succ_pos _) enough))
    obtain ⟨s, here, queue⟩ := empty sql List.mem_cons_self
    have passed : freeQuerys sql s.CircularQuerys (sql :: order) c.freed = some (sql :: order, c.freed) := by
      rw [freeQuerys, if_pos ⟨rfl, queue⟩]
    have result : m.hasResult sql = s.m_Result.isSome := by
      rw [hasResult, here]
      rfl
    rw [closeLoop, here, Option.bind_some, passed, Option.bind_some]
    simp only
    rw [ih (Nat.le_of_succ_le_succ enough) fun key mem => empty key (List.mem_cons_of_mem sql mem), List.filter_cons, result]
    split_ifs <;> simp

/-- It does not pass one whose queue is not empty. -/
theorem closeLoop_eq_none {s : Stmt} (fresh : c.freed = []) (known : ∀ sql ∈ order, (m.stmts sql).isSome) (mem : sql ∈ order)
    (here : m.stmts sql = some s) (some' : s.CircularQuerys ≠ []) : m.closeLoop turns order c = none := by
  induction order generalizing turns c with
  | nil => cases mem
  | cons key order ih =>
    cases turns with
    | zero => rfl
    | succ turns =>
      obtain ⟨t, there⟩ := Option.isSome_iff_exists.1 (known key List.mem_cons_self)
      rw [closeLoop, there, Option.bind_some, fresh]
      by_cases empty : t.CircularQuerys = []
      · have passed : freeQuerys key t.CircularQuerys (key :: order) [] = some (key :: order, []) := by
          rw [freeQuerys, if_pos ⟨rfl, empty⟩]
        have behind : sql ∈ order := by
          rcases List.mem_cons.1 mem with rfl | mem
          · rw [there] at here
            obtain rfl := Option.some.inj here
            exact absurd empty some'
          · exact mem
        rw [passed, Option.bind_some]
        exact ih rfl (fun sql mem => known sql (List.mem_cons_of_mem key mem)) behind
      · rw [freeQuerys_eq_none empty, Option.bind_none]

/-- **Closing.** In every reachable state `Close` returns, and has freed every queued request and every result and has closed every
statement once, if and only if all queues are empty. -/
theorem close_iff {as : List Call} (run : Runs call (fun _ _ => True) init as m) (perm : order.Perm m.keys) :
    (∃ c, m.Close order = some c ∧ Released m c) ↔ ∀ sql s, m.stmts sql = some s → s.CircularQuerys = [] := by
  have keyed : Keyed m := run.invariant Keyed .init fun _ _ _ keyed _ next => keyed.call next
  have known : ∀ sql ∈ order, (m.stmts sql).isSome := fun sql mem => (keyed.mem_iff sql).1 (perm.mem_iff.1 mem)
  constructor
  · rintro ⟨c, closed, -⟩ sql s here
    by_contra some'
    have mem : sql ∈ order := perm.mem_iff.2 ((keyed.mem_iff sql).2 (by rw [here]; rfl))
    have stuck : m.Close order = none := closeLoop_eq_none rfl known mem here some'
    rw [stuck] at closed
    cases closed
  · intro empty
    have all : ∀ sql ∈ order, ∃ s, m.stmts sql = some s ∧ s.CircularQuerys = [] := by
      intro sql mem
      obtain ⟨s, here⟩ := Option.isSome_iff_exists.1 (known sql mem)
      exact ⟨s, here, empty sql s here⟩
    refine ⟨_, closeLoop_of_empty (Nat.le_refl _) all, ?_, ?_, ?_⟩
    · have none' : m.keys.flatMap m.waiting = [] := by
        rw [List.flatMap_eq_nil_iff]
        intro sql mem
        obtain ⟨s, here, queue⟩ := all sql (perm.mem_iff.2 mem)
        rw [waiting_of_stmt here, Stmt.waiting, queue]
        rfl
      rw [none']
    · exact perm.filter _
    · exact perm

/-- Two statements that were prepared and never used. -/
theorem close_iff_unused : ∃ m c, Runs call (fun _ _ => True) init
      [.prepareQuery ['d'] ⟨0, 0, none⟩, .prepareQuery ['s'] ⟨0, 0, some [("a", .long)]⟩] m ∧
    m.keys = [['s'], ['d']] ∧ m.Close [['d'], ['s']] = some c ∧ Released m c := by
  obtain ⟨m, run, keys, empty⟩ : ∃ m, Runs call (fun _ _ => True) init
      [.prepareQuery ['d'] ⟨0, 0, none⟩, .prepareQuery ['s'] ⟨0, 0, some [("a", .long)]⟩] m ∧
      m.keys = [['s'], ['d']] ∧ ∀ sql ∈ m.keys, (m.stmts sql).all fun s => s.CircularQuerys = [] := by
    apply Runs.exists_of_decide
    decide
  have keyed : Keyed m := run.invariant Keyed .init fun _ _ _ keyed _ next => keyed.call next
  have perm : [['d'], ['s']].Perm m.keys := by
    rw [keys]
    exact List.Perm.swap _ _ _
  obtain ⟨c, closed, released⟩ := (close_iff run perm).2 fun sql s here => by
    have all := empty sql ((keyed.mem_iff sql).2 (by rw [here]; rfl))
    rw [here] at all
    exact of_decide_eq_true all
  exact ⟨m, c, run, keys, closed, released⟩

/-- A request is still queued for the only statement. -/
theorem close_queued : ∃ m, Runs call (fun _ _ => True) init [.act (.asynExecuteQueryVariable ['d'] false ⟨0, 0, none⟩)] m ∧
    m.keys = [['d']] ∧ m.Close [['d']] = none := by
  apply Runs.exists_of_decide
  decide

end Close

end MysqlStmt

end GameServer.Db

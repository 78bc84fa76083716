import GameServer.Lib.Requests
import GameServer.Login.PlayerMgr

/-!
# `AccountNetClient`: who gets the account server's answers

A request to create an account is remembered in `m_Creating` under its user name, an account
check in `m_pLogin` under a counter. The account server repeats the user name or the counter in
its answer. Requests are numbered as they are made; `pending` are the requests that the account
server has still to answer, which it does once each and in any order, and `sent` are the answers
with the connection each was sent to.

Both tables keep the entry that is there when a key comes again, so `answers_routed` is about
runs in which a request's key is free: two requests to create the same account at the same time
share one entry, and one of them is never answered.
-/

namespace GameServer.Login.Routing

open GameServer.Lib

inductive Request where
  | createAccount (conn : Conn) (username : String)
  | accountCheck (conn : Conn) (increament : BitVec 32) (username : String)
  deriving DecidableEq, Repr

/-- The connection that issued the request. -/
def Request.conn : Request → Conn
  | .createAccount conn _ => conn
  | .accountCheck conn _ _ => conn

/-- What an answer is matched by. -/
inductive Key where
  | username (name : String)
  | increament (n : BitVec 32)
  deriving DecidableEq, Repr

def Request.key : Request → Key
  | .createAccount _ username => .username username
  | .accountCheck _ increament _ => .increament increament

structure AccountNetClient where
  /-- Has `m_pLogin` and `m_LoginGameIncreament`. -/
  manager : PlayerManager
  /-- `m_Creating` -/
  creating : String → Option Conn
  issued : List Request
  pending : List Nat
  sent : List (Nat × Conn)

def AccountNetClient.init (r : Roster) : AccountNetClient := ⟨.init r, fun _ => none, [], [], []⟩

/-- The request goes to the account server. -/
def sendRequest (s : AccountNetClient) (request : Request) : AccountNetClient :=
  { s with issued := s.issued ++ [request], pending := s.pending ++ [s.issued.length] }

/-- `CreateAccount`. -/
def createAccount (s : AccountNetClient) (conn : Conn) (username : String) : AccountNetClient :=
  sendRequest { s with creating := mapInsert s.creating username conn } (.createAccount conn username)

/-- `CreateAccountResponse`, for the answer to request `r`. -/
def createAccountResponse (s : AccountNetClient) (r : Nat) (username : String) : AccountNetClient :=
  match s.creating username with
  | none => s
  | some conn => { s with creating := Function.update s.creating username none, sent := s.sent ++ [(r, conn)] }

/-- `AccountCheck`. -/
def accountCheck (s : AccountNetClient) (conn : Conn) (username : String) : AccountNetClient :=
  sendRequest { s with manager := Login.accountCheck s.manager conn }
    (.accountCheck conn s.manager.loginGameIncreament username)

/-- `AccountCheckResponse`, for the answer to request `r`. -/
def accountCheckResponse (s : AccountNetClient) (r : Nat) (increament : BitVec 32) (username : String) (result : Nat) :
    AccountNetClient :=
  match s.manager.login increament with
  | none => s
  | some conn =>
    { s with manager := Login.accountCheckResponse s.manager increament username result, sent := s.sent ++ [(r, conn)] }

inductive Act where
  | createAccount (conn : Conn) (username : String)
  | accountCheck (conn : Conn) (username : String)
  /-- The account server's answer to request `r`. -/
  | response (r : Nat) (result : Nat)
  deriving DecidableEq, Repr

def step (s : AccountNetClient) : Act → Option AccountNetClient
  | .createAccount conn username => some (createAccount s conn username)
  | .accountCheck conn username => some (accountCheck s conn username)
  | .response r result =>
    if r ∈ s.pending then
      let t := { s with pending := s.pending.erase r }
      match s.issued[r]? with
      | none => none
      | some (.createAccount _ username) => some (createAccountResponse t r username)
      | some (.accountCheck _ increament username) => some (accountCheckResponse t r increament username result)
    else none

/-- The two tables as one. -/
def table (s : AccountNetClient) : Key → Option Conn
  | .username name => s.creating name
  | .increament n => s.manager.login n

def requests (s : AccountNetClient) : Requests Key Conn where
  table := table s
  issued := s.issued.map fun request => (request.key, request.conn)
  pending := s.pending
  sent := s.sent

/-- A request finds its key free: no other request to create that account waits for its answer,
nor an account check from a whole round of the counter before. -/
def KeyFree (s : AccountNetClient) : Act → Prop
  | .createAccount _ username => s.creating username = none
  | .accountCheck _ _ => s.manager.login s.manager.loginGameIncreament = none
  | _ => True

variable {s t : AccountNetClient} {as : List Act} {a : Act}

/-- Setting one entry of one table. -/
theorem table_creating (s : AccountNetClient) (username : String) (entry : Option Conn) :
    table { s with creating := Function.update s.creating username entry } =
      Function.update (table s) (.username username) entry := by
  funext key
  cases key with
  | username name =>
    by_cases same : name = username
    · simp [table, same]
    · simp [table, same]
  | increament n => simp [table]

theorem table_login (s : AccountNetClient) {manager : PlayerManager} {n : BitVec 32} {entry : Option Conn}
    (set : manager.login = Function.update s.manager.login n entry) :
    table { s with manager := manager } = Function.update (table s) (.increament n) entry := by
  funext key
  cases key with
  | username name => simp [table]
  | increament n' =>
    by_cases same : n' = n
    · simp [table, set, same]
    · simp [table, set, same]

theorem requests_sendRequest (s : AccountNetClient) (request : Request) :
    requests (sendRequest s request) = { requests s with
      issued := (requests s).issued ++ [(request.key, request.conn)]
      pending := (requests s).pending ++ [(requests s).issued.length] } := by
  simp only [requests, sendRequest, List.map_append, List.map_cons, List.map_nil, List.length_map]
  rfl

theorem requests_createAccount (s : AccountNetClient) (conn : Conn) (username : String) :
    requests (createAccount s conn username) = (requests s).issue (.username username) conn := by
  rw [createAccount, requests_sendRequest, Requests.issue, requests, mapInsert, table_creating]
  rfl

theorem requests_accountCheck (s : AccountNetClient) (conn : Conn) (username : String) :
    requests (accountCheck s conn username) =
      (requests s).issue (.increament s.manager.loginGameIncreament) conn := by
  rw [accountCheck, requests_sendRequest, Requests.issue, requests, table_login s rfl]
  rfl

theorem login_accountCheckResponse {m : PlayerManager} {increament : BitVec 32} {conn : Conn}
    (asked : m.login increament = some conn) (username : String) (result : Nat) :
    (Login.accountCheckResponse m increament username result).login = Function.update m.login increament none := by
  simp only [Login.accountCheckResponse, asked]
  split <;> rfl

theorem requests_createAccountResponse (s : AccountNetClient) (r : Nat) (username : String) :
    requests (createAccountResponse { s with pending := s.pending.erase r } r username) =
      (requests s).answer r (.username username) := by
  cases asked : s.creating username with
  | none =>
    have absent : (requests s).table (.username username) = none := asked
    simp only [createAccountResponse, Requests.answer, asked, absent]
    rfl
  | some conn =>
    have entry : (requests s).table (.username username) = some conn := asked
    simp only [createAccountResponse, Requests.answer, asked, entry]
    rw [show (requests s).table = table s from rfl, ← table_creating]
    rfl

theorem requests_accountCheckResponse (s : AccountNetClient) (r : Nat) (increament : BitVec 32) (username : String)
    (result : Nat) :
    requests (accountCheckResponse { s with pending := s.pending.erase r } r increament username result) =
      (requests s).answer r (.increament increament) := by
  cases asked : s.manager.login increament with
  | none =>
    have absent : (requests s).table (.increament increament) = none := asked
    simp only [accountCheckResponse, Requests.answer, asked, absent]
    rfl
  | some conn =>
    have entry : (requests s).table (.increament increament) = some conn := asked
    simp only [accountCheckResponse, Requests.answer, asked, entry]
    rw [show (requests s).table = table s from rfl, ← table_login s (login_accountCheckResponse asked username result)]
    rfl

/-- **The tables refine `Requests`**: a request is issued under its key, an answer is an answer
to the request it repeats the key of. -/
theorem requests_step (next : step s a = some t) :
    (∃ key conn, (KeyFree s a → (requests s).table key = none) ∧ requests t = (requests s).issue key conn) ∨
    ∃ r request, r ∈ s.pending ∧ s.issued[r]? = some request ∧ requests t = (requests s).answer r request.key := by
  cases a with
  | createAccount conn username =>
    obtain rfl := Option.some.inj next
    exact .inl ⟨.username username, conn, id, requests_createAccount s conn username⟩
  | accountCheck conn username =>
    obtain rfl := Option.some.inj next
    exact .inl ⟨.increament s.manager.loginGameIncreament, conn, id, requests_accountCheck s conn username⟩
  | response r result =>
    obtain ⟨mem, next⟩ := Option.ite_none_right_eq_some.1 next
    right
    cases there : s.issued[r]? with
    | none =>
      rw [there] at next
      cases next
    | some request =>
      refine ⟨r, request, mem, there, ?_⟩
      rw [there] at next
      cases request with
      | createAccount conn username =>
        obtain rfl := Option.some.inj next
        exact requests_createAccountResponse s r username
      | accountCheck conn increament username =>
        obtain rfl := Option.some.inj next
        exact requests_accountCheckResponse s r increament username result

theorem routed_step (routed : (requests s).Routed) (free : KeyFree s a) (next : step s a = some t) :
    (requests t).Routed := by
  obtain ⟨key, conn, keyFree, eq⟩ | ⟨r, request, mem, there, eq⟩ := requests_step next
  · rw [eq]
    exact routed.issue (keyFree free)
  · rw [eq]
    have issued : (requests s).issued[r]? = some (request.key, request.conn) := by
      simp only [requests, List.getElem?_map, there, Option.map_some]
    exact routed.answer mem issued

/-- **Answers are routed.** In a run in which every request finds its key free, a request that the
account server has answered was passed on once, to the connection that issued it, and the others
not yet. -/
theorem answers_routed {r : Roster} (run : Runs step KeyFree (AccountNetClient.init r) as s) {i : Nat} {request : Request}
    (issued : s.issued[i]? = some request) :
    s.sent.filter (fun answer => answer.1 = i) = if i ∈ s.pending then [] else [(i, request.conn)] := by
  have routed : (requests s).Routed :=
    run.invariant (fun s => (requests s).Routed) (.start _) fun _ _ _ routed free next => routed_step routed free next
  refine routed.answered i request.key request.conn ?_
  simp only [requests, List.getElem?_map, issued, Option.map_some]

def keyFreeB (s : AccountNetClient) : Act → Bool
  | .createAccount _ username => (s.creating username).isNone
  | .accountCheck _ _ => (s.manager.login s.manager.loginGameIncreament).isNone
  | _ => true

theorem keyFree_of_keyFreeB (s : AccountNetClient) (a : Act) (checked : keyFreeB s a = true) : KeyFree s a := by
  cases a with
  | createAccount conn username => exact Option.isNone_iff_eq_none.1 checked
  | accountCheck conn username => exact Option.isNone_iff_eq_none.1 checked
  | response r result => trivial

def noPlayers : Roster where
  accPlayer := fun _ => none
  playerid := fun _ => 0
  allocated := 0
  unique_player := 1
  bounded := nofun

/-- Two connections, answered in the other order. -/
theorem answers_routed_two : ∃ s, Runs step KeyFree (AccountNetClient.init noPlayers)
    [.createAccount 1 "ann", .accountCheck 2 "bob", .response 1 0, .response 0 0] s ∧
    s.issued[0]? = some (.createAccount 1 "ann") ∧ s.pending = [] ∧
    s.sent.filter (fun answer => answer.1 = 0) = if 0 ∈ s.pending then [] else [(0, 1)] := by
  have checked : (runChecked step keyFreeB (AccountNetClient.init noPlayers)
      [.createAccount 1 "ann", .accountCheck 2 "bob", .response 1 0, .response 0 0]).any
      (fun s => s.issued[0]? = some (.createAccount 1 "ann") ∧ s.pending = []) = true := by decide
  obtain ⟨s, run, holds⟩ := Runs.exists_of_checked KeyFree keyFree_of_keyFreeB checked
  obtain ⟨issued, pending⟩ := of_decide_eq_true holds
  exact ⟨s, run, issued, pending, answers_routed run issued⟩

/-- Two connections ask for the same account. Both requests are answered by the account server,
and connection 2 gets no answer, whichever comes first; if its own does, that goes to
connection 1. -/
theorem answers_shared :
    (∃ s, Runs step (fun _ _ => True) (AccountNetClient.init noPlayers)
      [.createAccount 1 "ann", .createAccount 2 "ann", .response 0 0, .response 1 1] s ∧
      s.issued[1]? = some (.createAccount 2 "ann") ∧ s.pending = [] ∧ s.sent = [(0, 1)]) ∧
    ∃ s, Runs step (fun _ _ => True) (AccountNetClient.init noPlayers)
      [.createAccount 1 "ann", .createAccount 2 "ann", .response 1 0, .response 0 1] s ∧
      s.issued[1]? = some (.createAccount 2 "ann") ∧ s.pending = [] ∧ s.sent = [(1, 1)] := by
  constructor
  · apply Runs.exists_of_decide
    decide
  · apply Runs.exists_of_decide
    decide

end GameServer.Login.Routing

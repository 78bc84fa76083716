import GameServer.Lib.Run
import GameServer.Net.Pack
import Mathlib.Logic.Function.Basic

/-!
# xlib's `NetClient`

A client has one current connection, a queue of messages to send when there is one again, and
a timer that starts connection attempts. The completion or failure of an attempt and the break
of a connection come from the io threads and leave nothing behind but `conn_status` and
`m_pConnectTemp`, which `update` looks at. Events and calls are atomic. There is an
`m_pNetService` from the first `ConnectTo` on, and no event before that.

`handed`, `accepted`, `broken`, `started` and `last` are history: the messages given to
connections, those of the `Send` calls that were not refused, the connections that have
broken, the number of attempts and the last event.

The queue is flushed by calling `Send`, which without a connection puts every message back, so
that the loop does not end (`flushLoop_none`). `resend_exact` is about runs in which it is not
entered like that, `reconnect_exact` about runs in which no failure or break of another attempt
or connection comes while there is a current one.
-/

namespace GameServer.Net.Client

open GameServer.Lib

abbrev Conn := Nat

/-- `c_status`. -/
inductive Status where
  | status_free
  | status_connect
  | status_disconnect
  deriving DecidableEq, Repr

inductive Event where
  | connected (conn : Conn)
  | failed
  | broke (conn : Conn)
  deriving DecidableEq, Repr

structure NetClient where
  /-- `m_ip` and `m_port`. -/
  addr : String × Int
  connect : Option Conn
  connectTemp : Option Conn
  /-- `m_pTimer` is not null. -/
  hasTimerManager : Bool
  /-- `tTimer` is not null. -/
  timer : Bool
  packData : List Message
  conn_status : Status
  /-- The attempts that have neither completed nor failed. -/
  attempts : Nat
  made : Conn → Bool
  broken : Conn → Bool
  handed : List (Conn × Message)
  accepted : List Message
  started : Nat
  last : Option Event

def NetClient.init (hasTimerManager : Bool) : NetClient :=
  ⟨("", 0), none, none, hasTimerManager, false, [], .status_free, 0, fun _ => false, fun _ => false, [], [], 0, none⟩

/-- `Send`. -/
def send (s : NetClient) (m : Message) (bResend : Bool) : NetClient :=
  match s.connect with
  | some conn => { s with handed := s.handed ++ [(conn, m)] }
  | none => if bResend then { s with packData := s.packData ++ [m] } else s

/-- The loop over `m_pPackData`, with `m_pPackData.clear()`, for at most so many turns. -/
def flushLoop : Nat → Nat → NetClient → Option NetClient
  | 0, _, _ => none
  | fuel + 1, i, s => match s.packData[i]? with
    | none => some { s with packData := [] }
    | some m => flushLoop fuel (i + 1) (send s m true)

/-- The loop; if it ends at all, it ends after a turn for each message. -/
def flush (s : NetClient) : Option NetClient := flushLoop (s.packData.length + 1) 0 s

/-- `NetService::Connect`. -/
def startConnect (s : NetClient) : NetClient := { s with attempts := s.attempts + 1, started := s.started + 1 }

/-- `ConnectTo`; the old connection is given to `NetService::OnDisConnect`, which closes it. -/
def connectTo (s : NetClient) (ip : String) (port : Int) : Option NetClient :=
  let flushed := if s.addr ≠ (ip, port) then flush s else some s
  flushed.map fun s => startConnect { s with addr := (ip, port), connect := none }

/-- `ReConnect`. -/
def reConnect (s : NetClient) : NetClient := startConnect s

def update (s : NetClient) : Option NetClient :=
  match s.conn_status with
  | .status_connect => match s.connect with
    | some _ => some s
    | none =>
      let s := { s with connect := s.connectTemp }
      if s.timer && s.hasTimerManager then flush { s with timer := false } else some s
  | .status_disconnect =>
    let s := reConnect { s with connect := none, conn_status := .status_free }
    some { s with timer := s.hasTimerManager }
  | .status_free => some s

inductive Act where
  | send (m : Message) (bResend : Bool)
  | connectTo (ip : String) (port : Int)
  | update
  /-- An attempt completes: `NetService::OnConnect` calls `OnConnect`. -/
  | connected (conn : Conn)
  /-- An attempt fails: `NetService::OnConnect` calls `OnDisConnect` with no connection. -/
  | failed
  /-- A connection breaks: `OnDisConnect`. -/
  | broke (conn : Conn)
  /-- The reconnect timer. -/
  | tick
  deriving DecidableEq, Repr

def step (s : NetClient) : Act → Option NetClient
  | .send m bResend =>
    let t := send s m bResend
    some { t with accepted := if s.connect.isSome || bResend then s.accepted ++ [m] else s.accepted }
  | .connectTo ip port => connectTo s ip port
  | .update => update s
  | .connected conn =>
    if 0 < s.attempts ∧ ¬ s.made conn then
      some { s with
        attempts := s.attempts - 1, made := Function.update s.made conn true, conn_status := .status_connect
        connectTemp := some conn, last := some (.connected conn) }
    else none
  | .failed =>
    if 0 < s.attempts then
      some { s with
        attempts := s.attempts - 1, conn_status := .status_disconnect, connectTemp := none, last := some .failed }
    else none
  | .broke conn =>
    if s.made conn ∧ ¬ s.broken conn then
      some { s with
        broken := Function.update s.broken conn true, conn_status := .status_disconnect, connectTemp := some conn
        last := some (.broke conn) }
    else none
  | .tick => if s.timer then some (reConnect s) else none

section Flush

variable {s : NetClient} {conn : Conn} {m : Message} {bResend : Bool}

theorem send_some (connect : s.connect = some conn) :
    send s m bResend = { s with handed := s.handed ++ [(conn, m)] } := by
  simp only [send, connect]

theorem send_queue (connect : s.connect = none) : send s m true = { s with packData := s.packData ++ [m] } := by
  simp only [send, connect]
  rfl

theorem send_refuse (connect : s.connect = none) : send s m false = s := by
  simp only [send, connect]
  rfl

/-- With a connection the loop hands over the queue. -/
theorem flushLoop_some (connect : s.connect = some conn) (i extra : Nat) (inside : i ≤ s.packData.length) :
    flushLoop (s.packData.length - i + 1 + extra) i s =
      some { s with packData := [], handed := s.handed ++ (s.packData.drop i).map fun m => (conn, m) } := by
  obtain ⟨left, same⟩ : ∃ left, left = s.packData.length - i := ⟨_, rfl⟩
  rw [← same]
  induction left generalizing s i with
  | zero =>
    have done : s.packData.length ≤ i := by omega
    rw [Nat.zero_add, Nat.add_comm, flushLoop, List.getElem?_eq_none done, List.drop_eq_nil_of_le done]
    simp
  | succ left ih =>
    have more : i < s.packData.length := by omega
    rw [show left + 1 + 1 + extra = left + 1 + extra + 1 by omega, flushLoop, List.getElem?_eq_getElem more]
    show flushLoop (left + 1 + extra) (i + 1) (send s s.packData[i] true) = _
    have rest := ih (s := { s with handed := s.handed ++ [(conn, s.packData[i])] }) connect (i + 1) more
      (by show left = s.packData.length - (i + 1); omega)
    have drop : s.packData.drop i = s.packData[i] :: s.packData.drop (i + 1) := List.drop_eq_getElem_cons more
    rw [drop, List.map_cons, List.append_cons, send_some connect]
    exact rest

theorem flush_some (connect : s.connect = some conn) :
    flush s = some { s with packData := [], handed := s.handed ++ s.packData.map fun m => (conn, m) } := by
  have loop := flushLoop_some connect 0 0 (Nat.zero_le _)
  simpa [flush] using loop

/-- Without a connection each turn makes the queue longer by one, and the loop does not end. -/
theorem flushLoop_none (connect : s.connect = none) (fuel i : Nat) (inside : i < s.packData.length) :
    flushLoop fuel i s = none := by
  induction fuel generalizing s i with
  | zero => rfl
  | succ fuel ih =>
    rw [flushLoop, List.getElem?_eq_getElem inside]
    show flushLoop fuel (i + 1) (send s s.packData[i] true) = none
    rw [send_queue connect]
    refine ih (s := { s with packData := s.packData ++ [s.packData[i]] }) connect (i + 1) ?_
    show i + 1 < (s.packData ++ [s.packData[i]]).length
    rw [List.length_append]
    exact Nat.add_lt_add_right inside 1

theorem flush_nil (nil : s.packData = []) : flush s = some s := by
  obtain ⟨addr, connect, connectTemp, manager, timer, packData, status, attempts, made, broken, handed, accepted, started,
    last⟩ := s
  obtain rfl : packData = [] := nil
  rfl

end Flush

section Resend

/-- The queue is not flushed without a connection and no connection becomes current without a
flush: an address change finds the queue empty, and a connection that becomes current in
`update` finds it empty or finds the reconnect timer. -/
def Flushable (s : NetClient) : Act → Prop
  | .connectTo ip port => s.addr = (ip, port) ∨ s.packData = []
  | .update => s.conn_status = .status_connect → s.connect = none →
      s.packData = [] ∨ (s.timer && s.hasTimerManager) = true
  | _ => True

structure Queued (s : NetClient) : Prop where
  temp : s.conn_status = .status_connect → s.connectTemp ≠ none
  whole : s.handed.map Prod.snd ++ s.packData = s.accepted
  flushed : s.connect ≠ none → s.packData = []

variable {s t : NetClient} {as : List Act} {a : Act}

theorem Queued.init (hasTimerManager : Bool) : Queued (NetClient.init hasTimerManager) :=
  ⟨nofun, rfl, fun _ => rfl⟩

theorem connectTo_eq {ip : String} {port : Int} (good : Flushable s (.connectTo ip port)) :
    connectTo s ip port = some (startConnect { s with addr := (ip, port), connect := none }) := by
  unfold connectTo
  by_cases same : s.addr = (ip, port)
  · rw [if_neg (not_not.2 same)]
    rfl
  · have empty : s.packData = [] := good.resolve_left same
    rw [if_pos same, flush_nil empty]
    rfl

/-- The connection that becomes current in `update` gets the whole queue. -/
theorem update_current {conn : Conn} (good : Flushable s .update) (status : s.conn_status = .status_connect)
    (connect : s.connect = none) (temp : s.connectTemp = some conn) :
    ∃ timer, update s = some { s with
      connect := some conn, timer := timer, packData := []
      handed := s.handed ++ s.packData.map fun m => (conn, m) } := by
  have way := good status connect
  unfold update
  simp only [status, connect, temp]
  by_cases reconnected : (s.timer && s.hasTimerManager) = true
  · refine ⟨false, ?_⟩
    rw [if_pos reconnected, flush_some rfl]
  · have empty : s.packData = [] := way.resolve_right reconnected
    refine ⟨s.timer, ?_⟩
    rw [if_neg reconnected, empty, List.map_nil, List.append_nil]

theorem update_kept {conn : Conn} (status : s.conn_status = .status_connect) (connect : s.connect = some conn) :
    update s = some s := by
  simp only [update, status, connect]

theorem update_free (status : s.conn_status = .status_free) : update s = some s := by
  simp only [update, status]

theorem update_disconnect (status : s.conn_status = .status_disconnect) :
    update s = some (startConnect
      { s with connect := none, conn_status := .status_free, timer := s.hasTimerManager }) := by
  simp only [update, status]
  rfl

theorem Queued.update (inv : Queued s) (good : Flushable s .update) :
    ∃ t, update s = some t ∧ Queued t ∧ (s.connect = none → ∀ conn, t.connect = some conn →
      t.packData = [] ∧ t.handed = s.handed ++ s.packData.map fun m => (conn, m)) := by
  cases status : s.conn_status with
  | status_connect =>
    cases connect : s.connect with
    | some conn =>
      exact ⟨s, update_kept status connect, inv, nofun⟩
    | none =>
      obtain ⟨conn, temp⟩ := Option.ne_none_iff_exists'.1 (inv.temp status)
      obtain ⟨timer, eq⟩ := update_current good status connect temp
      refine ⟨_, eq, ⟨inv.temp, ?_, fun _ => rfl⟩, fun _ conn' current => ?_⟩
      · have same : (Prod.snd ∘ fun m : Message => (conn, m)) = id := rfl
        simpa [same] using inv.whole
      · obtain rfl : conn = conn' := Option.some.inj current
        exact ⟨rfl, rfl⟩
  | status_disconnect =>
    exact ⟨_, update_disconnect status, ⟨nofun, inv.whole, fun current => (current rfl).elim⟩, nofun⟩
  | status_free =>
    refine ⟨s, update_free status, inv, fun none conn current => ?_⟩
    rw [none] at current
    cases current

theorem Queued.send (inv : Queued s) (m : Message) (bResend : Bool) (next : step s (.send m bResend) = some t) :
    Queued t := by
  obtain rfl := Option.some.inj next
  cases connect : s.connect with
  | some conn =>
    have empty : s.packData = [] := inv.flushed (by rw [connect]; nofun)
    have whole : s.handed.map Prod.snd = s.accepted := by
      have whole := inv.whole
      rwa [empty, List.append_nil] at whole
    rw [send_some connect]
    refine ⟨inv.temp, ?_, fun _ => empty⟩
    simp [empty, whole]
  | none =>
    have idle : ∀ {P : Prop}, s.connect ≠ none → P := fun current => (current connect).elim
    cases bResend with
    | true =>
      rw [send_queue connect]
      refine ⟨inv.temp, ?_, idle⟩
      simp [← inv.whole]
    | false =>
      rw [send_refuse connect]
      exact ⟨inv.temp, inv.whole, idle⟩

theorem Queued.step (inv : Queued s) (good : Flushable s a) (next : step s a = some t) : Queued t := by
  cases a with
  | send m bResend => exact inv.send m bResend next
  | connectTo ip port =>
    obtain rfl := Option.some.inj ((connectTo_eq good).symm.trans next)
    exact ⟨inv.temp, inv.whole, nofun⟩
  | update =>
    obtain ⟨u, eq, after, -⟩ := inv.update good
    obtain rfl := Option.some.inj (eq.symm.trans next)
    exact after
  | connected conn =>
    obtain ⟨-, ⟨⟩⟩ := Option.ite_none_right_eq_some.1 next
    exact ⟨nofun, inv.whole, inv.flushed⟩
  | failed =>
    obtain ⟨-, ⟨⟩⟩ := Option.ite_none_right_eq_some.1 next
    exact ⟨nofun, inv.whole, inv.flushed⟩
  | broke conn =>
    obtain ⟨-, ⟨⟩⟩ := Option.ite_none_right_eq_some.1 next
    exact ⟨nofun, inv.whole, inv.flushed⟩
  | tick =>
    obtain ⟨-, ⟨⟩⟩ := Option.ite_none_right_eq_some.1 next
    exact ⟨inv.temp, inv.whole, inv.flushed⟩

/-- **Messages are resent once and in order.** In a run whose steps are `Flushable` the messages
handed to connections, followed by those that wait, are the accepted ones; nothing waits while
there is a connection; a connection that becomes current gets what has waited; and `ConnectTo`
and `update` come to their end. -/
theorem resend_exact {hasTimerManager : Bool} (run : Runs step Flushable (NetClient.init hasTimerManager) as s) :
    s.handed.map Prod.snd ++ s.packData = s.accepted ∧
      (s.connect ≠ none → s.packData = []) ∧
      (∀ ip port, Flushable s (.connectTo ip port) → step s (.connectTo ip port) ≠ none) ∧
      (Flushable s .update → ∃ t, step s .update = some t ∧ (s.connect = none → ∀ conn, t.connect = some conn →
        t.packData = [] ∧ t.handed = s.handed ++ s.packData.map fun m => (conn, m))) := by
  have inv : Queued s := run.invariant Queued (.init hasTimerManager) fun _ _ _ inv good next => inv.step good next
  refine ⟨inv.whole, inv.flushed, fun ip port good => ?_, fun good => ?_⟩
  · show connectTo s ip port ≠ none
    rw [connectTo_eq good]
    nofun
  · obtain ⟨t, eq, -, gets⟩ := inv.update good
    exact ⟨t, eq, gets⟩

def flushableB (s : NetClient) : Act → Bool
  | .connectTo ip port => s.addr = (ip, port) || s.packData.isEmpty
  | .update => s.conn_status ≠ .status_connect || s.connect.isSome || s.packData.isEmpty || s.timer && s.hasTimerManager
  | _ => true

theorem flushable_of_flushableB (s : NetClient) (a : Act) (checked : flushableB s a = true) : Flushable s a := by
  cases a with
  | connectTo ip port => simpa [flushableB, Flushable] using checked
  | update =>
    intro status connect
    simpa [flushableB, status, connect] using checked
  | _ => trivial

/-- The connection breaks, two messages wait, and the next connection gets them. -/
theorem resend_exact_break : ∃ s, Runs step Flushable (NetClient.init true)
    [.connectTo "127.0.0.1" 80, .connected 0, .update, .broke 0, .update, .send ⟨1, 2, [7]⟩ true, .send ⟨3, 4, []⟩ true,
      .connected 1] s ∧ s.packData = [⟨1, 2, [7]⟩, ⟨3, 4, []⟩] ∧
    ∃ t, step s .update = some t ∧ (s.connect = none → ∀ conn, t.connect = some conn →
      t.packData = [] ∧ t.handed = s.handed ++ s.packData.map fun m => (conn, m)) := by
  have checked : (runChecked step flushableB (NetClient.init true)
      [.connectTo "127.0.0.1" 80, .connected 0, .update, .broke 0, .update, .send ⟨1, 2, [7]⟩ true, .send ⟨3, 4, []⟩ true,
        .connected 1]).any (fun s => s.packData = [⟨1, 2, [7]⟩, ⟨3, 4, []⟩] ∧ flushableB s .update = true) = true := by decide
  obtain ⟨s, run, holds⟩ := Runs.exists_of_checked Flushable flushable_of_flushableB checked
  obtain ⟨waiting, good⟩ := of_decide_eq_true holds
  exact ⟨s, run, waiting, (resend_exact run).2.2.2 (flushable_of_flushableB s .update good)⟩

/-- A message sent before the first `ConnectTo` makes the loop in `ConnectTo` run forever. One
sent while the first attempt is under way still waits when its connection is current. -/
theorem resend_stuck :
    (∃ s, Runs step (fun _ _ => True) (NetClient.init true) [.send ⟨1, 2, [7]⟩ true] s ∧
      s.addr ≠ ("127.0.0.1", 80) ∧ ∀ fuel, flushLoop fuel 0 s = none) ∧
    ∃ s, Runs step (fun _ _ => True) (NetClient.init true)
      [.connectTo "127.0.0.1" 80, .send ⟨1, 2, [7]⟩ true, .connected 0, .update] s ∧
      s.connect = some 0 ∧ s.packData = [⟨1, 2, [7]⟩] ∧ s.handed = [] := by
  constructor
  · have run : Runs step (fun _ _ => True) (NetClient.init true) [.send ⟨1, 2, [7]⟩ true] _ := .single trivial rfl
    refine ⟨_, run, by decide, fun fuel => flushLoop_none rfl fuel 0 (by decide)⟩
  · apply Runs.exists_of_decide
    decide

end Resend

section Reconnect

/-- No failure and no break reaches the client while it has a current connection that is
neither the one that breaks nor broken already. -/
def Own (s : NetClient) : Act → Prop
  | .failed => ∀ current, s.connect = some current → s.broken current = true
  | .broke conn => ∀ current, s.connect = some current → current = conn ∨ s.broken current = true
  | _ => True

structure Watched (s : NetClient) : Prop where
  dropped : s.conn_status = .status_disconnect → ∀ conn, s.connect = some conn → s.broken conn = true
  noticed : ∀ conn, s.last = some (.broke conn) → s.connect = some conn → s.conn_status = .status_disconnect
  newer : s.conn_status = .status_connect → ∀ conn, s.last ≠ some (.broke conn)

variable {s t : NetClient} {as : List Act} {a : Act}

theorem send_frame (s : NetClient) (m : Message) (bResend : Bool) :
    ∃ packData handed, send s m bResend = { s with packData := packData, handed := handed } := by
  unfold send
  split
  · exact ⟨_, _, rfl⟩
  · split
    · exact ⟨_, _, rfl⟩
    · exact ⟨_, _, rfl⟩

theorem flushLoop_frame {fuel i : Nat} (ends : flushLoop fuel i s = some t) :
    ∃ packData handed, t = { s with packData := packData, handed := handed } := by
  induction fuel generalizing s i with
  | zero => cases ends
  | succ fuel ih =>
    rw [flushLoop] at ends
    split at ends
    · cases ends
      exact ⟨_, _, rfl⟩
    · next m _ =>
      obtain ⟨packData, handed, turn⟩ := send_frame s m true
      rw [turn] at ends
      obtain ⟨packData, handed, rfl⟩ := ih ends
      exact ⟨packData, handed, rfl⟩

theorem connectTo_frame {ip : String} {port : Int} (next : connectTo s ip port = some t) :
    ∃ packData handed, t = startConnect
      { s with addr := (ip, port), connect := none, packData := packData, handed := handed } := by
  obtain ⟨u, flushed, rfl⟩ := Option.map_eq_some_iff.1 next
  split at flushed
  · obtain ⟨packData, handed, rfl⟩ := flushLoop_frame flushed
    exact ⟨packData, handed, rfl⟩
  · cases flushed
    exact ⟨_, _, rfl⟩

/-- What `update` does: nothing, or a connection becomes current, or the current connection is
dropped and an attempt started. -/
theorem update_cases (next : update s = some t) :
    s.conn_status ≠ .status_disconnect ∧ t = s ∨
    (s.conn_status = .status_connect ∧ s.connect = none ∧ ∃ timer packData handed,
      t = { s with connect := s.connectTemp, timer := timer, packData := packData, handed := handed }) ∨
    s.conn_status = .status_disconnect ∧
      t = startConnect { s with connect := none, conn_status := .status_free, timer := s.hasTimerManager } := by
  cases status : s.conn_status with
  | status_connect =>
    cases connect : s.connect with
    | some conn =>
      rw [update_kept status connect] at next
      cases next
      exact .inl ⟨nofun, rfl⟩
    | none =>
      right
      left
      refine ⟨rfl, rfl, ?_⟩
      simp only [update, status, connect] at next
      split at next
      · obtain ⟨packData, handed, rfl⟩ := flushLoop_frame next
        exact ⟨false, packData, handed, rfl⟩
      · cases next
        exact ⟨_, _, _, rfl⟩
  | status_disconnect =>
    rw [update_disconnect status] at next
    cases next
    exact .inr (.inr ⟨rfl, rfl⟩)
  | status_free =>
    rw [update_free status] at next
    cases next
    exact .inl ⟨nofun, rfl⟩

theorem Watched.init (hasTimerManager : Bool) : Watched (NetClient.init hasTimerManager) :=
  ⟨nofun, nofun, nofun⟩

theorem Watched.step (inv : Watched s) (good : Own s a) (next : step s a = some t) : Watched t := by
  cases a with
  | send m bResend =>
    obtain ⟨packData, handed, sent⟩ := send_frame s m bResend
    obtain rfl := Option.some.inj next
    rw [sent]
    exact ⟨inv.dropped, inv.noticed, inv.newer⟩
  | connectTo ip port =>
    obtain ⟨packData, handed, rfl⟩ := connectTo_frame next
    exact ⟨nofun, nofun, inv.newer⟩
  | update =>
    obtain ⟨-, rfl⟩ | ⟨status, connect, timer, packData, handed, rfl⟩ | ⟨-, rfl⟩ := update_cases next
    · exact inv
    · refine ⟨fun status' => ?_, fun conn last _ => (inv.newer status conn last).elim, inv.newer⟩
      rw [show s.conn_status = .status_disconnect from status'] at status
      cases status
    · exact ⟨nofun, nofun, nofun⟩
  | connected conn =>
    obtain ⟨-, ⟨⟩⟩ := Option.ite_none_right_eq_some.1 next
    exact ⟨nofun, nofun, nofun⟩
  | failed =>
    obtain ⟨-, ⟨⟩⟩ := Option.ite_none_right_eq_some.1 next
    exact ⟨fun _ => good, nofun, nofun⟩
  | broke conn =>
    obtain ⟨-, ⟨⟩⟩ := Option.ite_none_right_eq_some.1 next
    refine ⟨fun _ current connect => ?_, fun _ _ _ => rfl, nofun⟩
    rcases good current connect with rfl | broken
    · exact Function.update_self ..
    · by_cases same : current = conn
      · rw [same]
        exact Function.update_self ..
      · exact (Function.update_of_ne same ..).trans broken
  | tick =>
    obtain ⟨-, ⟨⟩⟩ := Option.ite_none_right_eq_some.1 next
    exact ⟨inv.dropped, inv.noticed, inv.newer⟩

/-- **Only a broken connection is dropped.** In a run whose steps are `Own`, an `update` that
changes the current connection finds it broken, and one that comes right after the break of
the current connection starts an attempt. -/
theorem reconnect_exact {hasTimerManager : Bool} (run : Runs step Own (NetClient.init hasTimerManager) as s)
    (next : step s .update = some t) {conn : Conn} (current : s.connect = some conn) :
    (t.connect ≠ some conn → s.broken conn = true) ∧
      (s.last = some (.broke conn) → t.started = s.started + 1) := by
  have inv : Watched s := run.invariant Watched (.init hasTimerManager) fun _ _ _ inv good next => inv.step good next
  obtain ⟨other, rfl⟩ | ⟨-, connect, -⟩ | ⟨status, rfl⟩ := update_cases next
  · refine ⟨fun changed => (changed current).elim, fun last => ?_⟩
    exact (other (inv.noticed conn last current)).elim
  · rw [connect] at current
    cases current
  · exact ⟨fun _ => inv.dropped status conn current, fun _ => rfl⟩

def ownB (s : NetClient) : Act → Bool
  | .failed => s.connect.all fun current => s.broken current
  | .broke conn => s.connect.all fun current => current = conn || s.broken current
  | _ => true

theorem own_of_ownB (s : NetClient) (a : Act) (checked : ownB s a = true) : Own s a := by
  cases a with
  | failed =>
    intro current connect
    simpa [ownB, connect] using checked
  | broke conn =>
    intro current connect
    simpa [ownB, connect] using checked
  | _ => trivial

/-- The current connection breaks and is dropped. -/
theorem reconnect_exact_break : ∃ s t, Runs step Own (NetClient.init true)
    [.connectTo "127.0.0.1" 80, .connected 0, .update, .broke 0] s ∧ step s .update = some t ∧ s.connect = some 0 ∧
    (t.connect ≠ some 0 → s.broken 0 = true) ∧ (s.last = some (.broke 0) → t.started = s.started + 1) := by
  have checked : (runChecked step ownB (NetClient.init true)
      [.connectTo "127.0.0.1" 80, .connected 0, .update, .broke 0]).any
      (fun s => s.connect = some 0 ∧ (step s .update).isSome) = true := by decide
  obtain ⟨s, run, holds⟩ := Runs.exists_of_checked Own own_of_ownB checked
  obtain ⟨current, ends⟩ := of_decide_eq_true holds
  obtain ⟨t, next⟩ := Option.isSome_iff_exists.1 ends
  exact ⟨s, t, run, next, current, reconnect_exact run next current⟩

/-- Two attempts are under way. The first completes and its connection is current when the
second fails: the connection is dropped, although it has not broken and was not replaced. -/
theorem reconnect_unbroken : ∃ s t, Runs step (fun _ _ => True) (NetClient.init true)
    [.connectTo "127.0.0.1" 80, .failed, .update, .tick, .connected 0, .update, .failed] s ∧
    step s .update = some t ∧ s.connect = some 0 ∧ t.connect = none ∧ s.broken 0 = false := by
  have checked : (runChecked step (fun _ _ => true) (NetClient.init true)
      [.connectTo "127.0.0.1" 80, .failed, .update, .tick, .connected 0, .update, .failed]).any
      (fun s => (step s .update).any fun t => s.connect = some 0 ∧ t.connect = none ∧ s.broken 0 = false) = true := by decide
  obtain ⟨s, run, holds⟩ := Runs.exists_of_checked (fun _ _ => True) (fun _ _ _ => trivial) checked
  obtain ⟨t, next, dropped⟩ := (Option.any_eq_true _ _).1 holds
  exact ⟨s, t, run, next, of_decide_eq_true dropped⟩

end Reconnect

end GameServer.Net.Client

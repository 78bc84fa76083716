import GameServer.LibGame.SendQueue
import Mathlib.Data.List.Count
import Mathlib.Logic.Function.Basic

/-!
# The connections of libgame's `NetService`

`m_ConnectMap` holds the connections by their address string, and the lists of new and of
closed connections hold addresses. `handleConnect` and `handleConnect2` insert a connection
unless its address is taken; `close` queues the address; `Update` reports the new ones, and for
each closed one looks the address up, releases what it finds there, erases the entry and
reports it. The model's lists name the connection whose address was queued, but `Update` reads
nothing of it but the address. An empty address is `none`; `SetAddress` always gives one.

Where an address is taken by another connection, the lookup finds the wrong one. If every
connection gets an address that is free in the map (`Free`), each one is reachable until it
closes and is then released and reported once (`service_exact`).
-/

namespace GameServer.LibGame.Service

open GameServer.Lib SendQueue

abbrev Conn := Nat
abbrev Endpoint := String

/-- Where `Update` is, with what it has still to dispatch. -/
inductive Phase where
  | idle
  | packs (tmpPackCollect : List (Conn × NetPack))
  | news (tmpNew : List Conn)
  | closes (tmpClose : List Conn)
  deriving DecidableEq, Repr

structure NetService where
  connectMap : Option Endpoint → Option Conn
  packCollect : List (Conn × NetPack)
  newConnectCollect : List Conn
  closeConnectCollect : List Conn
  phase : Phase
  /-- `m_Address` and `m_bDisconnect` of the connections. -/
  address : Conn → Option Endpoint
  bDisconnect : Conn → Bool
  /-- The connections that exist, and those whose connect succeeded. -/
  used : Conn → Bool
  opened : Conn → Bool
  fired : List (Conn × NetPack)
  /-- The connections that `onConnect` was called for. -/
  connected : List Conn
  /-- The connections that `releaseRes` and `onDisconnect` were called for. -/
  released : List Conn

def NetService.init : NetService :=
  ⟨fun _ => none, [], [], [], .idle, fun _ => none, fun _ => false, fun _ => false, fun _ => false, [], [], []⟩

/-- `NetConnect::close`, with `NetService::OnDisconnect`. -/
def close (s : NetService) (conn : Conn) : NetService :=
  if s.bDisconnect conn then s
  else { s with
    bDisconnect := Function.update s.bDisconnect conn true
    closeConnectCollect := s.closeConnectCollect ++ [conn] }

/-- `m_ConnectMap.insert`, which does nothing where the address is taken. -/
def insert (s : NetService) (conn : Conn) : NetService :=
  { s with connectMap := Function.update s.connectMap (s.address conn) (some ((s.connectMap (s.address conn)).getD conn)) }

/-- A new connection with its address. -/
def newConnect (s : NetService) (conn : Conn) (address : Option Endpoint) : NetService :=
  { s with used := Function.update s.used conn true, address := Function.update s.address conn address }

/-- `handleConnect` and `handleConnect2` without error. -/
def handleConnect (s : NetService) (conn : Conn) (endpoint : Endpoint) : NetService :=
  let s := insert (newConnect s conn (some endpoint)) conn
  { s with
    opened := Function.update s.opened conn true
    newConnectCollect := s.newConnectCollect ++ [conn] }

inductive Act where
  | handleConnect (conn : Conn) (endpoint : Endpoint)
  /-- `handleConnect` with an error: the connection has no address. -/
  | acceptFailed (conn : Conn)
  /-- `handleConnect2` with an error: `Connect` has set an address, `Connect2` has not. -/
  | connectFailed (conn : Conn) (address : Option Endpoint)
  | receivePack (conn : Conn) (pack : NetPack)
  /-- A read ends in an error. -/
  | close (conn : Conn)
  | disconnect (addr : Option Endpoint)
  /-- The next part of `Update`. -/
  | update
  deriving DecidableEq, Repr

/-- `Update` for one closed connection. -/
def closeOne (s : NetService) (conn : Conn) : NetService :=
  match s.connectMap (s.address conn) with
  | none => s
  | some found =>
    { s with
      connectMap := Function.update s.connectMap (s.address conn) none
      released := s.released ++ [found] }

/-- A part of `Update`: a critical section, or the dispatch of one item. -/
def update (s : NetService) : NetService :=
  match s.phase with
  | .idle => { s with phase := .packs s.packCollect, packCollect := [] }
  | .packs (pack :: packs) => { s with fired := s.fired ++ [pack], phase := .packs packs }
  | .packs [] => { s with phase := .news s.newConnectCollect, newConnectCollect := [] }
  | .news (conn :: conns) => { s with connected := s.connected ++ [conn], phase := .news conns }
  | .news [] => { s with phase := .closes s.closeConnectCollect, closeConnectCollect := [] }
  | .closes (conn :: conns) => { closeOne s conn with phase := .closes conns }
  | .closes [] => { s with phase := .idle }

def step (s : NetService) : Act → Option NetService
  | .handleConnect conn endpoint => if s.used conn then none else some (handleConnect s conn endpoint)
  | .acceptFailed conn => if s.used conn then none else some (close (newConnect s conn none) conn)
  | .connectFailed conn address =>
    if s.used conn then none else some (close (insert (newConnect s conn address) conn) conn)
  | .receivePack conn pack => if s.opened conn then some { s with packCollect := s.packCollect ++ [(conn, pack)] } else none
  | .close conn => if s.opened conn then some (close s conn) else none
  | .disconnect addr => match s.connectMap addr with
    | none => some s
    | some conn => some (close s conn)
  | .update => some (update s)

/-- A connection that gets an address finds it free in the map. -/
def Free (s : NetService) : Act → Prop
  | .handleConnect _ endpoint => s.connectMap (some endpoint) = none
  | .connectFailed _ address => address ≠ none → s.connectMap address = none
  | _ => True

/-- The closes that `Update` has still to process. -/
def NetService.closing (s : NetService) : List Conn :=
  (match s.phase with | .closes tmpClose => tmpClose | _ => []) ++ s.closeConnectCollect

/-- The new connections that `Update` has still to report. -/
def NetService.announcing (s : NetService) : List Conn :=
  (match s.phase with | .news tmpNew => tmpNew | _ => []) ++ s.newConnectCollect

/-- Which connection is at which address, and which closes are on their way. -/
structure Inv (s : NetService) : Prop where
  reachable : ∀ conn, s.opened conn = true → s.bDisconnect conn = false → s.connectMap (s.address conn) = some conn
  named : ∀ conn, s.opened conn = true → s.used conn = true ∧ s.address conn ≠ none
  map : ∀ addr conn, s.connectMap addr = some conn → s.used conn = true ∧ s.address conn = addr
  /-- Without an address there are only attempts that have failed. -/
  failed : ∀ conn, s.connectMap none = some conn → s.bDisconnect conn = true
  closed : ∀ conn, s.bDisconnect conn = true → s.used conn = true
  closing : ∀ conn ∈ s.closing, s.bDisconnect conn = true ∧
    (s.address conn ≠ none → s.connectMap (s.address conn) = some conn)
  nodup : s.closing.Nodup
  released : ∀ conn ∈ s.released, s.bDisconnect conn = true
  once : ∀ conn, s.opened conn = true →
    s.released.count conn + s.closing.count conn = if s.bDisconnect conn then 1 else 0
  announced : ∀ conn, conn ∈ s.connected ∨ conn ∈ s.announcing → s.opened conn = true

section Steps

variable {s t : NetService} {conn : Conn} {endpoint : Endpoint} {address : Option Endpoint} {as : List Act} {a : Act}

theorem Inv.init : Inv .init where
  reachable _ opened := nomatch opened
  named _ opened := nomatch opened
  map _ _ found := nomatch found
  failed _ found := nomatch found
  closed _ closed := nomatch closed
  closing _ mem := nomatch mem
  nodup := .nil
  released _ mem := nomatch mem
  once _ opened := nomatch opened
  announced _ mem := by
    rcases mem with mem | mem <;> cases mem

/-- A flag that has been set. -/
theorem flag_set {f : Conn → Bool} {c : Conn} : Function.update f conn true c = true ↔ c = conn ∨ f c = true := by
  by_cases same : c = conn
  · simp [same]
  · simp [same]

/-- A connection that has not closed is not being released. -/
theorem Inv.count_live (inv : Inv s) (live : s.bDisconnect conn = false) :
    s.released.count conn = 0 ∧ s.closing.count conn = 0 := by
  constructor
  · refine List.count_eq_zero.2 fun mem => ?_
    cases live.symm.trans (inv.released conn mem)
  · refine List.count_eq_zero.2 fun mem => ?_
    cases live.symm.trans (inv.closing conn mem).1

theorem Inv.newConnect (inv : Inv s) (new : s.used conn = false) (address : Option Endpoint) :
    Inv (newConnect s conn address) := by
  have other : ∀ c, s.used c = true → c ≠ conn := by
    rintro c used rfl
    rw [new] at used
    cases used
  have place : ∀ c, s.used c = true → Function.update s.address conn address c = s.address c :=
    fun c used => Function.update_of_ne (other c used) _ _
  have still : ∀ c, s.used c = true → Function.update s.used conn true c = true := fun c used => flag_set.2 (.inr used)
  refine ⟨?_, ?_, ?_, inv.failed, fun c closed => still c (inv.closed c closed), ?_, inv.nodup, inv.released, inv.once,
    inv.announced⟩
  · intro c opened live
    show s.connectMap (Function.update s.address conn address c) = some c
    rw [place c (inv.named c opened).1]
    exact inv.reachable c opened live
  · intro c opened
    obtain ⟨used, named⟩ := inv.named c opened
    refine ⟨still c used, ?_⟩
    show Function.update s.address conn address c ≠ none
    rw [place c used]
    exact named
  · intro addr c found
    obtain ⟨used, same⟩ := inv.map addr c found
    exact ⟨still c used, (place c used).trans same⟩
  · intro c mem
    obtain ⟨closed, there⟩ := inv.closing c mem
    refine ⟨closed, ?_⟩
    show Function.update s.address conn address c ≠ none → s.connectMap (Function.update s.address conn address c) = some c
    rw [place c (inv.closed c closed)]
    exact there

/-- Inserting never takes an address away. -/
theorem Inv.insert (inv : Inv s) (used : s.used conn = true)
    (ended : s.address conn = none → s.bDisconnect conn = true) : Inv (insert s conn) := by
  -- only the entry at the address of `conn` changes, and no other connection with an address is there
  have kept : ∀ c, s.address c ≠ none → s.connectMap (s.address c) = some c →
      (Service.insert s conn).connectMap (s.address c) = some c := by
    intro c named found
    show Function.update s.connectMap _ _ _ = _
    by_cases same : s.address c = s.address conn
    · rw [same, Function.update_self, ← same, found]
      rfl
    · rw [Function.update_of_ne same]
      exact found
  have entry : ∀ addr c, (Service.insert s conn).connectMap addr = some c →
      s.connectMap addr = some c ∨ addr = s.address conn ∧ c = conn := by
    intro addr c found
    have found : Function.update s.connectMap (s.address conn) _ addr = some c := found
    by_cases same : addr = s.address conn
    · rw [same, Function.update_self] at found
      cases there : s.connectMap (s.address conn) with
      | none =>
        rw [there] at found
        exact .inr ⟨same, (Option.some.inj found).symm⟩
      | some c' =>
        rw [there] at found
        exact .inl (by rw [same, there]; exact found)
    · rw [Function.update_of_ne same] at found
      exact .inl found
  refine ⟨?_, inv.named, ?_, ?_, inv.closed, ?_, inv.nodup, inv.released, inv.once, inv.announced⟩
  · intro c opened live
    exact kept c (inv.named c opened).2 (inv.reachable c opened live)
  · intro addr c found
    rcases entry addr c found with old | ⟨rfl, rfl⟩
    · exact inv.map addr c old
    · exact ⟨used, rfl⟩
  · intro c found
    rcases entry none c found with old | ⟨none', rfl⟩
    · exact inv.failed c old
    · exact ended none'.symm
  · intro c mem
    obtain ⟨closed, there⟩ := inv.closing c mem
    exact ⟨closed, fun named => kept c named (there named)⟩

theorem insert_free (free : s.connectMap (s.address conn) = none) : (insert s conn).connectMap (s.address conn) = some conn := by
  show Function.update s.connectMap (s.address conn) _ (s.address conn) = some conn
  rw [Function.update_self, free]
  rfl

/-- A connection closes while it is in the map, or has no address. -/
theorem Inv.close (inv : Inv s) (used : s.used conn = true)
    (there : s.address conn ≠ none → s.connectMap (s.address conn) = some conn) : Inv (close s conn) := by
  unfold Service.close
  split_ifs with old
  · exact inv
  obtain ⟨unreleased, absent⟩ := inv.count_live (by simpa using old)
  have still : ∀ c, s.bDisconnect c = true → Function.update s.bDisconnect conn true c = true :=
    fun c closed => flag_set.2 (.inr closed)
  have more : NetService.closing { s with
      bDisconnect := Function.update s.bDisconnect conn true
      closeConnectCollect := s.closeConnectCollect ++ [conn] } = s.closing ++ [conn] := by
    simp only [NetService.closing, List.append_assoc]
  refine ⟨?_, inv.named, inv.map, fun c found => still c (inv.failed c found), ?_, ?_, ?_,
    fun c mem => still c (inv.released c mem), ?_, inv.announced⟩
  · intro c opened stays
    refine inv.reachable c opened (Bool.eq_false_iff.2 fun closed => ?_)
    cases stays.symm.trans (still c closed)
  · intro c closed
    rcases flag_set.1 closed with rfl | closed
    · exact used
    · exact inv.closed c closed
  · intro c mem
    rw [more] at mem
    rcases List.mem_append.1 mem with mem | mem
    · obtain ⟨closed, there⟩ := inv.closing c mem
      exact ⟨still c closed, there⟩
    · rw [List.mem_singleton.1 mem]
      exact ⟨Function.update_self _ _ _, there⟩
  · rw [more, List.nodup_append]
    refine ⟨inv.nodup, by simp, ?_⟩
    rintro c mem d last rfl
    exact List.count_eq_zero.1 absent (List.mem_singleton.1 last ▸ mem)
  · intro c opened
    rw [more]
    show s.released.count c + (s.closing ++ [conn]).count c = if Function.update s.bDisconnect conn true c then 1 else 0
    rw [List.count_append]
    by_cases same : c = conn
    · rw [same, Function.update_self, unreleased, absent]
      simp
    · rw [Function.update_of_ne same, ← inv.once c opened, List.count_singleton]
      have differ : (conn == c) = false := by simpa using fun h => same h.symm
      rw [differ]
      rfl

theorem Inv.handleConnect (inv : Inv s) (new : s.used conn = false) (free : s.connectMap (some endpoint) = none) :
    Inv (handleConnect s conn endpoint) := by
  have address : (Service.newConnect s conn (some endpoint)).address conn = some endpoint := Function.update_self _ _ _
  have mid : Inv (Service.insert (Service.newConnect s conn (some endpoint)) conn) := by
    refine (inv.newConnect new (some endpoint)).insert (Function.update_self _ _ _) ?_
    intro none'
    rw [address] at none'
    cases none'
  have live : s.bDisconnect conn = false := by
    refine Bool.eq_false_iff.2 fun closed => ?_
    cases new.symm.trans (inv.closed conn closed)
  obtain ⟨unreleased, absent⟩ := inv.count_live live
  refine ⟨?_, ?_, mid.map, mid.failed, mid.closed, mid.closing, mid.nodup, mid.released, ?_, ?_⟩
  · intro c opened live
    rcases flag_set.1 opened with rfl | opened
    · show (Service.insert (Service.newConnect s c (some endpoint)) c).connectMap
        ((Service.newConnect s c (some endpoint)).address c) = some c
      apply insert_free
      rw [address]
      exact free
    · exact mid.reachable c opened live
  · intro c opened
    rcases flag_set.1 opened with rfl | opened
    · refine ⟨Function.update_self _ _ _, ?_⟩
      show (Service.newConnect s c (some endpoint)).address c ≠ none
      rw [address]
      nofun
    · exact mid.named c opened
  · intro c opened
    rcases flag_set.1 opened with rfl | opened
    · show s.released.count c + s.closing.count c = if s.bDisconnect c then 1 else 0
      rw [live, unreleased, absent]
      rfl
    · exact mid.once c opened
  · intro c mem
    refine flag_set.2 ?_
    rcases mem with mem | there
    · exact .inr (inv.announced c (.inl mem))
    · have there : c ∈ (match s.phase with | .news tmpNew => tmpNew | _ => []) ++ (s.newConnectCollect ++ [conn]) := there
      rw [← List.append_assoc] at there
      rcases List.mem_append.1 there with there | there
      · exact .inr (inv.announced c (.inr there))
      · exact .inl (List.mem_singleton.1 there)

theorem Inv.connectFailed (inv : Inv s) (new : s.used conn = false) (free : address ≠ none → s.connectMap address = none) :
    Inv (Service.close (Service.insert (Service.newConnect s conn address) conn) conn) := by
  have mid := inv.newConnect new address
  have used : (Service.newConnect s conn address).used conn = true := Function.update_self _ _ _
  have place : (Service.newConnect s conn address).address conn = address := Function.update_self _ _ _
  cases address with
  | none =>
    -- without an address it is all the same in which order it closes and is inserted
    have swap : Service.close (Service.insert (Service.newConnect s conn none) conn) conn =
        Service.insert (Service.close (Service.newConnect s conn none) conn) conn := by
      unfold Service.close Service.insert
      split_ifs <;> rfl
    have closed := mid.close used fun named => absurd place named
    have addr : (Service.close (Service.newConnect s conn none) conn).address conn = none := by
      unfold Service.close
      split_ifs <;> exact place
    have ended : (Service.close (Service.newConnect s conn none) conn).bDisconnect conn = true := by
      unfold Service.close
      split_ifs with old
      · exact old
      · exact Function.update_self _ _ _
    rw [swap]
    exact closed.insert (closed.closed conn ended) fun _ => ended
  | some endpoint =>
    have inserted := mid.insert used (by rw [place]; nofun)
    refine inserted.close used fun _ => insert_free ?_
    rw [place]
    exact free nofun

/-- `Update` takes the next closed connection. -/
structure Takes (s : NetService) (conn : Conn) (conns : List Conn) : Prop where
  closing : s.closing = conn :: (conns ++ s.closeConnectCollect)
  nodup : (conns ++ s.closeConnectCollect).Nodup
  last : conn ∉ conns ++ s.closeConnectCollect
  announced : ∀ c, c ∈ s.connected ∨ c ∈ s.newConnectCollect → s.opened c = true

theorem Inv.takes (inv : Inv s) {conns : List Conn} (phase : s.phase = .closes (conn :: conns)) : Takes s conn conns := by
  have closing : s.closing = conn :: (conns ++ s.closeConnectCollect) := by
    simp [NetService.closing, phase]
  have announcing : s.announcing = s.newConnectCollect := by simp [NetService.announcing, phase]
  have nodup := inv.nodup
  rw [closing, List.nodup_cons] at nodup
  refine ⟨closing, nodup.2, nodup.1, ?_⟩
  rw [← announcing]
  exact inv.announced

theorem Takes.mem {conns : List Conn} (takes : Takes s conn conns) {c : Conn} (mem : c ∈ conns ++ s.closeConnectCollect) :
    c ∈ s.closing := by
  rw [takes.closing]
  exact List.mem_cons_of_mem _ mem

/-- A connection that is not in the map has no address, so it was never open. -/
theorem Inv.closeMissing (inv : Inv s) {conns : List Conn} (takes : Takes s conn conns)
    (missing : s.connectMap (s.address conn) = none) : Inv { s with phase := .closes conns } := by
  obtain ⟨-, there⟩ := inv.closing conn (by rw [takes.closing]; exact List.mem_cons_self)
  have nowhere : s.address conn = none := by
    by_contra named
    rw [there named] at missing
    cases missing
  refine ⟨inv.reachable, inv.named, inv.map, inv.failed, inv.closed, fun c mem => inv.closing c (takes.mem mem), takes.nodup,
    inv.released, ?_, takes.announced⟩
  intro c opened
  have other : conn ≠ c := fun same => (inv.named c opened).2 (same ▸ nowhere)
  have count := inv.once c opened
  rw [takes.closing, List.count_cons_of_ne other] at count
  exact count

/-- A connection with an address finds itself in the map; one without finds another that failed. -/
theorem Inv.closeFound (inv : Inv s) {conns : List Conn} {found : Conn} (takes : Takes s conn conns)
    (there : s.connectMap (s.address conn) = some found) : Inv { s with
      connectMap := Function.update s.connectMap (s.address conn) none, released := s.released ++ [found],
      phase := .closes conns } := by
  obtain ⟨closed, itself⟩ := inv.closing conn (by rw [takes.closing]; exact List.mem_cons_self)
  obtain ⟨used, address⟩ := inv.map _ found there
  have same : s.address conn ≠ none → conn = found := by
    intro named
    exact Option.some.inj ((itself named).symm.trans there)
  have over' : s.bDisconnect found = true := by
    by_cases named : s.address conn = none
    · rw [named] at there
      exact inv.failed found there
    · rw [← same named]
      exact closed
  have kept : ∀ c, c ≠ found → s.connectMap (s.address c) = some c →
      Function.update s.connectMap (s.address conn) none (s.address c) = some c := by
    intro c other here
    have differ : s.address c ≠ s.address conn := by
      intro same
      rw [same, there] at here
      exact other (Option.some.inj here).symm
    rw [Function.update_of_ne differ]
    exact here
  have entry : ∀ addr c, Function.update s.connectMap (s.address conn) none addr = some c → s.connectMap addr = some c := by
    intro addr c here
    by_cases same : addr = s.address conn
    · rw [same, Function.update_self] at here
      cases here
    · rw [Function.update_of_ne same] at here
      exact here
  refine ⟨?_, inv.named, fun addr c here => inv.map addr c (entry addr c here), fun c here => inv.failed c (entry none c here),
    inv.closed, ?_, takes.nodup, ?_, ?_, takes.announced⟩
  · intro c opened live
    refine kept c ?_ (inv.reachable c opened live)
    rintro rfl
    cases live.symm.trans over'
  · intro c mem
    obtain ⟨closed', there'⟩ := inv.closing c (takes.mem mem)
    refine ⟨closed', fun named => kept c ?_ (there' named)⟩
    rintro rfl
    -- the connection that was found has an address, so it is the one that was looked for
    exact takes.last (same (address ▸ named) ▸ mem)
  · intro c mem
    rcases List.mem_append.1 mem with mem | mem
    · exact inv.released c mem
    · rw [List.mem_singleton.1 mem]
      exact over'
  · intro c opened
    have count := inv.once c opened
    rw [takes.closing] at count
    show (s.released ++ [found]).count c + (conns ++ s.closeConnectCollect).count c = _
    rw [List.count_append]
    by_cases named : s.address conn = none
    · have other : conn ≠ c := fun same => (inv.named c opened).2 (same ▸ named)
      have other' : found ≠ c := fun same => (inv.named c opened).2 (same ▸ address.trans named)
      rw [List.count_cons_of_ne other] at count
      rw [← count, List.count_singleton]
      simp [other']
    · rw [← count, List.count_singleton, ← same named, List.count_cons]
      omega

/-- `Update` for one closed connection. -/
theorem Inv.closeOne (inv : Inv s) {conns : List Conn} (phase : s.phase = .closes (conn :: conns)) :
    Inv { closeOne s conn with phase := .closes conns } := by
  have takes := inv.takes phase
  unfold Service.closeOne
  cases found : s.connectMap (s.address conn) with
  | none => exact inv.closeMissing takes found
  | some other => exact inv.closeFound takes found

/-- The other parts of `Update` only move the lists along. -/
theorem Inv.moved (inv : Inv s) (same : t = { s with
      packCollect := t.packCollect, newConnectCollect := t.newConnectCollect, closeConnectCollect := t.closeConnectCollect,
      phase := t.phase, fired := t.fired, connected := t.connected })
    (closing : t.closing = s.closing) (announcing : t.connected ++ t.announcing = s.connected ++ s.announcing) : Inv t := by
  have announced : ∀ c, c ∈ t.connected ∨ c ∈ t.announcing → s.opened c = true := by
    intro c mem
    rw [← List.mem_append, announcing, List.mem_append] at mem
    exact inv.announced c mem
  have nodup := inv.nodup
  have pending := inv.closing
  have once := inv.once
  rw [← closing] at nodup pending once
  rw [same] at nodup pending once announced ⊢
  exact ⟨inv.reachable, inv.named, inv.map, inv.failed, inv.closed, pending, nodup, inv.released, once, announced⟩

theorem Inv.update (inv : Inv s) : Inv (update s) := by
  unfold Service.update
  split
  · next phase => exact inv.moved rfl (by simp [NetService.closing, phase]) (by simp [NetService.announcing, phase])
  · next phase => exact inv.moved rfl (by simp [NetService.closing, phase]) (by simp [NetService.announcing, phase])
  · next phase => exact inv.moved rfl (by simp [NetService.closing, phase]) (by simp [NetService.announcing, phase])
  · next phase => exact inv.moved rfl (by simp [NetService.closing, phase]) (by simp [NetService.announcing, phase])
  · next phase => exact inv.moved rfl (by simp [NetService.closing, phase]) (by simp [NetService.announcing, phase])
  · next phase => exact inv.closeOne phase
  · next phase => exact inv.moved rfl (by simp [NetService.closing, phase]) (by simp [NetService.announcing, phase])

theorem Inv.step (inv : Inv s) (free : Free s a) (next : step s a = some t) : Inv t := by
  cases a with
  | handleConnect conn endpoint =>
    simp only [Service.step] at next
    split_ifs at next with old
    obtain rfl := Option.some.inj next
    exact inv.handleConnect (by simpa using old) free
  | acceptFailed conn =>
    simp only [Service.step] at next
    split_ifs at next with old
    obtain rfl := Option.some.inj next
    refine (inv.newConnect (by simpa using old) none).close (Function.update_self _ _ _) ?_
    intro named
    exact absurd (Function.update_self _ _ _) named
  | connectFailed conn address =>
    simp only [Service.step] at next
    split_ifs at next with old
    obtain rfl := Option.some.inj next
    exact inv.connectFailed (by simpa using old) free
  | receivePack conn pack =>
    simp only [Service.step] at next
    split_ifs at next
    obtain rfl := Option.some.inj next
    exact inv.moved rfl rfl rfl
  | close conn =>
    simp only [Service.step] at next
    split_ifs at next with opened
    obtain rfl := Option.some.inj next
    by_cases closed : s.bDisconnect conn = true
    · rw [Service.close, if_pos closed]
      exact inv
    · exact inv.close (inv.named conn opened).1 fun _ => inv.reachable conn opened (by simpa using closed)
  | disconnect addr =>
    simp only [Service.step] at next
    split at next
    · obtain rfl := Option.some.inj next
      exact inv
    · next conn found =>
      obtain rfl := Option.some.inj next
      obtain ⟨used, address⟩ := inv.map addr conn found
      exact inv.close used fun _ => by rw [address]; exact found
  | update =>
    obtain rfl := Option.some.inj next
    exact inv.update

/-- **Connections are told apart** in every run in which each one gets an address that is free:
`releaseRes` and `onDisconnect` are called for closed connections only, an open connection is
in the map under its address, and a connection that was reported by `onConnect` is reported by
`onDisconnect` once after it has closed, as soon as `Update` has come to its close. -/
theorem service_exact (run : Runs step Free .init as s) :
    (∀ conn ∈ s.released, s.bDisconnect conn = true) ∧
    (∀ conn, s.opened conn = true → s.bDisconnect conn = false → s.connectMap (s.address conn) = some conn) ∧
    ∀ conn ∈ s.connected, s.released.count conn + s.closing.count conn = if s.bDisconnect conn then 1 else 0 := by
  have inv : Inv s := run.invariant Inv Inv.init fun _ _ _ inv free next => inv.step free next
  exact ⟨inv.released, inv.reachable, fun conn mem => inv.once conn (inv.announced conn (.inl mem))⟩

end Steps

instance (s : NetService) : (a : Act) → Decidable (Free s a)
  | .handleConnect _ _ => inferInstanceAs (Decidable (_ = _))
  | .acceptFailed _ => inferInstanceAs (Decidable True)
  | .connectFailed _ _ => inferInstanceAs (Decidable (_ → _))
  | .receivePack _ _ => inferInstanceAs (Decidable True)
  | .close _ => inferInstanceAs (Decidable True)
  | .disconnect _ => inferInstanceAs (Decidable True)
  | .update => inferInstanceAs (Decidable True)

/-- A peer connects, breaks, and comes back from the same address after `Update`. -/
def comesBack : List Act :=
  [.handleConnect 0 "10.0.0.1:5000", .close 0] ++ List.replicate 6 .update ++
    [.handleConnect 1 "10.0.0.1:5000", .update, .update, .update, .update]

theorem service_exact_again : ∃ s, Runs step Free .init comesBack s ∧ s.connected = [0, 1] ∧ s.released = [0] ∧
    s.connectMap (s.address 1) = some 1 ∧
    ∀ conn ∈ s.connected, s.released.count conn + s.closing.count conn = if s.bDisconnect conn then 1 else 0 := by
  obtain ⟨s, run, connected, released, opened, live⟩ : ∃ s, Runs step Free .init comesBack s ∧
      s.connected = [0, 1] ∧ s.released = [0] ∧ s.opened 1 = true ∧ s.bDisconnect 1 = false := by
    apply Runs.exists_of_decide
    decide
  obtain ⟨-, reachable, once⟩ := service_exact run
  exact ⟨s, run, connected, released, reachable 1 opened live, once⟩

/-- A peer comes back from the same address before `Update`. If the first connection has closed,
the second is left out of the map, and its own close is never reported; if the second closes
first, the first is released while it is open. -/
theorem service_mistaken :
    (∃ s, Runs step (fun _ _ => True) .init
        ([.handleConnect 0 "10.0.0.1:5000", .close 0, .handleConnect 1 "10.0.0.1:5000"] ++ List.replicate 7 .update) s ∧
      s.opened 1 = true ∧ s.bDisconnect 1 = false ∧ s.connectMap (s.address 1) ≠ some 1) ∧
    (∃ s, Runs step (fun _ _ => True) .init
        ([.handleConnect 0 "10.0.0.1:5000", .close 0, .handleConnect 1 "10.0.0.1:5000"] ++ List.replicate 7 .update ++
          [.close 1] ++ List.replicate 5 .update) s ∧
      1 ∈ s.connected ∧ s.bDisconnect 1 = true ∧ s.released.count 1 + s.closing.count 1 = 0) ∧
    ∃ s, Runs step (fun _ _ => True) .init
        ([.handleConnect 0 "10.0.0.1:5000", .handleConnect 1 "10.0.0.1:5000", .close 1] ++ List.replicate 6 .update) s ∧
      0 ∈ s.released ∧ s.bDisconnect 0 = false := by
  refine ⟨?_, ?_, ?_⟩
  · apply Runs.exists_of_decide
    decide
  · apply Runs.exists_of_decide
    decide
  · apply Runs.exists_of_decide
    decide

end GameServer.LibGame.Service

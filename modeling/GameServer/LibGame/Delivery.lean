import GameServer.LibGame.Service
import GameServer.Net.Pack
import Mathlib.Data.List.Forall2

/-!
# From one libgame connection to the other

A connection that sends, the bytes between the two sides, and a connection that reads and gives its packs to the `NetService` of its
side. The sender is the machine of the send queue, whose writes go out piece by piece; the reader asks for a head and then for so many
bytes as the head says; its service is the machine of the connections, with whatever other connections it has. `tagPackHead` is that of
xlib, with another version.

Nothing is lost on the way (`Inv`), so what the service is given is what was accepted, in order (`delivery`). `datasize` has 16 bits, and
so a pack arrives cut to its length modulo 65536.
-/

namespace GameServer.LibGame.Delivery

open GameServer.Lib SendQueue Service

abbrev PackHead := Net.PackHead

def PACK_VER : BitVec 16 := 0

/-- The head that `NetPack(messageid, pdata, len, roleid)` fills in. -/
def head (p : NetPack) : PackHead where
  begflag := Net.PackHead.PACK_HFLAG
  version := PACK_VER
  messageid := p.messageid
  roleid := p.roleid
  datasize := BitVec.ofNat 16 p.data.length
  endflag := Net.PackHead.PACK_EFLAG

/-- The `GetBuffSize` bytes at `GetBuff`. -/
def buff (p : NetPack) : List UInt8 := (head p).bytes ++ p.data.take (head p).datasize.toNat

def verifyHeader (m_Head : PackHead) : Bool :=
  PACK_VER = m_Head.version && Net.PackHead.PACK_HFLAG = m_Head.begflag && Net.PackHead.PACK_EFLAG = m_Head.endflag

/-- A pack as it is read. -/
def received (p : NetPack) : NetPack := { p with data := p.data.take (p.data.length % 65536) }

/-- The outstanding `async_read`; there is none before `Read` is called and after one has failed. -/
inductive Reading where
  | idle
  | head
  | body
  | ended
  deriving DecidableEq, Repr

/-- `NetConnect` as far as reading goes, with the bytes that have come and are not read. -/
structure Reader where
  m_Head : PackHead
  reading : Reading
  stream : List UInt8

structure System where
  sender : SendQueue.NetConnect
  /-- What is left of the outstanding writes. -/
  pending : List (List UInt8)
  wire : List UInt8
  reader : Reader
  service : NetService

def System.init : System := ⟨.init, [], [], ⟨Net.PackHead.zero, .idle, []⟩, .init⟩

inductive Act where
  | sender (a : SendQueue.Act)
  /-- So many bytes of a write go out. -/
  | transfer (i n : Nat)
  /-- So many bytes come in. -/
  | arrive (n : Nat)
  /-- The outstanding read completes. -/
  | read
  | readFailed
  | service (a : Service.Act)
  deriving DecidableEq, Repr

variable (conn : Conn)

/-- `NetConnect::Read`. -/
def read (r : Reader) : Reader := { r with m_Head := Net.PackHead.zero, reading := .head }

def close (s : System) : System := { s with reader := { s.reader with reading := .ended }, service := Service.close s.service conn }

def handleHead (s : System) (data : List UInt8) : System :=
  let m_Head := Net.PackHead.ofBytes data
  let s : System := { s with reader := { s.reader with m_Head := m_Head } }
  if verifyHeader m_Head then { s with reader := { s.reader with reading := .body } } else close conn s

/-- `handleBody`, with `ReceivePack` of the service. -/
def handleBody (s : System) (data : List UInt8) : System :=
  let pack : NetPack := ⟨s.reader.m_Head.messageid, data, s.reader.m_Head.roleid⟩
  { s with
    reader := read s.reader
    service := { s.service with packCollect := s.service.packCollect ++ [(conn, pack)] } }

/-- The outstanding read has all its bytes. -/
def completeRead (s : System) : Option System :=
  let stream := s.reader.stream
  match s.reader.reading with
  | .head =>
    if stream.length < Net.PackHead.size then none
    else some (handleHead conn { s with reader := { s.reader with stream := stream.drop Net.PackHead.size } } (stream.take Net.PackHead.size))
  | .body =>
    let size := s.reader.m_Head.datasize.toNat
    if stream.length < size then none
    else some (handleBody conn { s with reader := { s.reader with stream := stream.drop size } } (stream.take size))
  | _ => none

/-- The connection that reads is the one that was accepted or connected. -/
def connected (r : Reader) : Service.Act → Reader
  | .handleConnect c _ => if c = conn then read r else r
  | _ => r

/-- Only the reader gives the packs of its connection to the service. -/
def forged : Service.Act → Bool
  | .receivePack c _ => c = conn
  | _ => false

def step (s : System) : Act → Option System
  | .sender .asyncWrite => (SendQueue.step s.sender .asyncWrite).map fun c =>
      { s with sender := c, pending := s.pending ++ (s.sender.sendPack.map buff).toList }
  | .sender (.handWrite i) =>
    if s.pending[i]? = some [] then
      (SendQueue.step s.sender (.handWrite i)).map fun c => { s with sender := c, pending := s.pending.eraseIdx i }
    else none
  | .sender a => (SendQueue.step s.sender a).map fun c => { s with sender := c }
  | .transfer i n =>
    match s.pending[i]? with
    | none => none
    | some left => some { s with pending := s.pending.set i (left.drop n), wire := s.wire ++ left.take n }
  | .arrive n => some { s with wire := s.wire.drop n, reader := { s.reader with stream := s.reader.stream ++ s.wire.take n } }
  | .read => completeRead conn s
  | .readFailed =>
    match s.reader.reading with
    | .idle => none
    | .ended => none
    | _ => some (close conn s)
  | .service a =>
    if forged conn a then none
    else (Service.step s.service a).map fun service => { s with service := service, reader := connected conn s.reader a }

/-- The connection that sends stays open. -/
def StaysOpen (_ : System) (a : Act) : Prop := a ≠ .sender .close

instance (s : System) (a : Act) : Decidable (StaysOpen s a) := inferInstanceAs (Decidable (a ≠ .sender .close))

/-- The packs that a service was given: those fired, those `Update` is about to fire and those collected. -/
def inbox (s : NetService) : List (Conn × NetPack) :=
  s.fired ++ (match s.phase with | .packs tmpPackCollect => tmpPackCollect | _ => []) ++ s.packCollect

/-- Those of the connection. -/
def given (entries : List (Conn × NetPack)) : List NetPack := (entries.filter fun e => e.1 = conn).map Prod.snd

/-- What was read of the next pack. -/
def Reader.consumed (r : Reader) : List UInt8 := if r.reading = .body then r.m_Head.bytes else []

/-- The packs of the queue that no write was issued for. -/
def unissued (c : SendQueue.NetConnect) : List NetPack := c.sendPackCollect.drop c.outstanding.length

/-- Until a read fails, what is not received of the accepted packs is on its way, in order. -/
structure Sync (s : System) (done rest : List NetPack) : Prop where
  accepted : s.sender.accepted = done ++ rest
  given : given conn (inbox s.service) = done.map received
  bytes : s.reader.consumed ++ s.reader.stream ++ s.wire ++ s.pending.flatten ++ (unissued s.sender).flatMap buff = rest.flatMap buff
  body : s.reader.reading = .body → ∃ p rest', rest = p :: rest' ∧ s.reader.m_Head = head p

structure Inv (s : System) : Prop where
  queue : SendQueue.Inv s.sender
  pending : List.Forall₂ (fun left p => left <:+ buff p) s.pending s.sender.outstanding
  sync : s.reader.reading ≠ .ended → ∃ done rest, Sync conn s done rest
  given : given conn (inbox s.service) <+: s.sender.accepted.map received
  used : s.reader.reading ≠ .idle → s.service.used conn = true

section Packs

variable {p : NetPack} {h : PackHead}

theorem datasize_head (p : NetPack) : (head p).datasize.toNat = p.data.length % 65536 := by
  simp [head]

/-- A pack of less than 64 kilobytes is received as it was sent. -/
theorem received_eq (short : p.data.length < 65536) : received p = p := by
  rw [received, Nat.mod_eq_of_lt short, List.take_length]

theorem buff_eq (p : NetPack) : buff p = (head p).bytes ++ (received p).data := by
  rw [buff, datasize_head]
  rfl

theorem length_received (p : NetPack) : (received p).data.length = (head p).datasize.toNat := by
  rw [datasize_head, received, List.length_take]
  exact Nat.min_eq_left (Nat.mod_le _ _)

theorem length_buff (p : NetPack) : (buff p).length = Net.PackHead.size + (head p).datasize.toNat := by
  rw [buff_eq, List.length_append, Net.PackHead.length_bytes, length_received]

theorem verifyHeader_head (p : NetPack) : verifyHeader (head p) = true := rfl

end Packs

section Inbox

variable {conn : Conn} {s s' : NetService} {a : Service.Act} {entries entries' : List (Conn × NetPack)}

theorem given_append : given conn (entries ++ entries') = given conn entries ++ given conn entries' := by
  rw [given, List.filter_append, List.map_append]
  rfl

theorem inbox_close (s : NetService) (c : Conn) : inbox (Service.close s c) = inbox s := by
  unfold Service.close
  split_ifs <;> rfl

theorem inbox_update (s : NetService) : inbox (Service.update s) = inbox s := by
  unfold Service.update
  cases phase : s.phase with
  | idle => simp [inbox, phase]
  | packs tmp =>
    cases tmp with
    | nil => simp [inbox, phase]
    | cons pack packs => simp [inbox, phase]
  | news tmp =>
    cases tmp with
    | nil => simp [inbox, phase]
    | cons c conns => simp [inbox, phase]
  | closes tmp =>
    cases tmp with
    | nil => simp [inbox, phase]
    | cons c conns =>
      show inbox { closeOne s c with phase := .closes conns } = inbox s
      unfold closeOne
      cases s.connectMap (s.address c) <;> simp [inbox, phase]

/-- What a service was given only changes when it is given a pack. -/
theorem inbox_step (next : Service.step s a = some s') (honest : forged conn a = false) :
    given conn (inbox s') = given conn (inbox s) := by
  cases a with
  | handleConnect c endpoint =>
    simp only [Service.step] at next
    split_ifs at next
    cases next
    rfl
  | acceptFailed c =>
    simp only [Service.step] at next
    split_ifs at next
    cases next
    rw [inbox_close]
    rfl
  | connectFailed c address =>
    simp only [Service.step] at next
    split_ifs at next
    cases next
    rw [inbox_close]
    rfl
  | receivePack c pack =>
    simp only [Service.step] at next
    split_ifs at next
    cases next
    have other : c ≠ conn := of_decide_eq_false honest
    have added : inbox { s with packCollect := s.packCollect ++ [(c, pack)] } = inbox s ++ [(c, pack)] := (List.append_assoc _ _ _).symm
    rw [added, given_append]
    simp [given, other]
  | close c =>
    simp only [Service.step] at next
    split_ifs at next
    cases next
    rw [inbox_close]
  | disconnect addr =>
    simp only [Service.step] at next
    split at next
    · cases next
      rfl
    · cases next
      rw [inbox_close]
  | update =>
    cases next
    rw [inbox_update]

end Inbox

section Sender

variable {conn : Conn} {s s' : System} {done rest : List NetPack} {c : SendQueue.NetConnect} {p : NetPack}

/-- The writes that are outstanding are those of the first packs of the queue. -/
theorem outstanding_unissued (inv : SendQueue.Inv c) : c.sendPackCollect = c.outstanding ++ unissued c := by
  cases sending : c.bSending with
  | false =>
    rw [unissued, (inv.idle sending).2]
    rfl
  | true =>
    obtain ⟨pack, queue, whole, -, ⟨-, none'⟩ | ⟨-, one⟩⟩ := inv.busy sending
    · rw [unissued, none']
      rfl
    · rw [unissued, one, whole]
      rfl

/-- A write can only be issued when there is no other. -/
theorem issues (inv : SendQueue.Inv c) (writer : c.writers ≠ 0) : ∃ pack queue, c.sendPackCollect = pack :: queue ∧
    c.sendPack = some pack ∧ c.outstanding = [] := by
  have sending : c.bSending = true := by
    by_contra quiet
    exact writer (inv.idle (by simpa using quiet)).1
  obtain ⟨pack, queue, whole, taken, ⟨-, none'⟩ | ⟨zero, -⟩⟩ := inv.busy sending
  · exact ⟨pack, queue, whole, taken, none'⟩
  · exact absurd zero writer

theorem outstanding_one (inv : SendQueue.Inv c) {i : Nat} (mem : c.outstanding[i]? = some p) : i = 0 ∧ c.outstanding = [p] := by
  have few : c.outstanding = [] ∨ ∃ q, c.outstanding = [q] := by
    cases sending : c.bSending with
    | false => exact .inl (inv.idle sending).2
    | true =>
      obtain ⟨pack, queue, -, -, ⟨-, none'⟩ | ⟨-, one⟩⟩ := inv.busy sending
      · exact .inl none'
      · exact .inr ⟨pack, one⟩
  rcases few with none' | ⟨q, one⟩
  · rw [none'] at mem
    cases mem
  · rw [one] at mem ⊢
    cases i with
    | zero =>
      obtain rfl := Option.some.inj mem
      exact ⟨rfl, rfl⟩
    | succ i => cases mem

end Sender

section Steps

variable {conn : Conn} {s s' : System} {done rest : List NetPack} {c : SendQueue.NetConnect}

/-- A pack that is accepted is the last of what is on its way. -/
theorem Inv.accept (inv : Inv conn s) (queue : SendQueue.Inv c) (p : NetPack) (last : c.sendPackCollect = s.sender.sendPackCollect ++ [p])
    (writes : c.outstanding = s.sender.outstanding) (accepted : c.accepted = s.sender.accepted ++ [p]) :
    Inv conn { s with sender := c } := by
  refine ⟨queue, by rw [writes]; exact inv.pending, ?_, ?_, inv.used⟩
  · intro reads
    obtain ⟨done, rest, sync⟩ := inv.sync reads
    refine ⟨done, rest ++ [p], ?_, sync.given, ?_, ?_⟩
    · rw [accepted, sync.accepted, List.append_assoc]
    · have few : s.sender.outstanding.length ≤ s.sender.sendPackCollect.length := by
        rw [outstanding_unissued inv.queue, List.length_append]
        omega
      have behind : unissued c = unissued s.sender ++ [p] := by
        rw [unissued, last, writes, List.drop_append_of_le_length few]
        rfl
      rw [behind, List.flatMap_append, List.flatMap_append, ← sync.bytes]
      simp only [List.append_assoc]
    · intro body
      obtain ⟨q, rest', rfl, same⟩ := sync.body body
      exact ⟨q, rest' ++ [p], rfl, same⟩
  · rw [accepted, List.map_append]
    exact inv.given.trans (List.prefix_append _ _)

theorem Inv.send (inv : Inv conn s) (messageid : BitVec 32) (pdata : Option (List UInt8)) (roleid : BitVec 32) :
    Inv conn { s with sender := SendQueue.send s.sender messageid pdata roleid } := by
  have queue := inv.queue.send messageid pdata roleid
  unfold SendQueue.send at queue ⊢
  cases pdata with
  | none => exact inv
  | some data =>
    dsimp only at queue ⊢
    split_ifs at queue ⊢
    · exact inv
    · exact inv
    · exact inv.accept queue ⟨messageid, data, roleid⟩ rfl rfl rfl

/-- Steps that leave the queue, the writes and the accepted packs as they are. -/
theorem Inv.sender (inv : Inv conn s) (queue : SendQueue.Inv c) (same : c.sendPackCollect = s.sender.sendPackCollect)
    (writes : c.outstanding = s.sender.outstanding) (accepted : c.accepted = s.sender.accepted) : Inv conn { s with sender := c } := by
  have still : unissued c = unissued s.sender := by rw [unissued, unissued, same, writes]
  refine ⟨queue, by rw [writes]; exact inv.pending, ?_, by rw [accepted]; exact inv.given, inv.used⟩
  intro reads
  obtain ⟨done, rest, sync⟩ := inv.sync reads
  exact ⟨done, rest, accepted.trans sync.accepted, sync.given, by rw [still]; exact sync.bytes, sync.body⟩

theorem doSend_same (c : SendQueue.NetConnect) : (SendQueue.doSend c).sendPackCollect = c.sendPackCollect ∧
    (SendQueue.doSend c).outstanding = c.outstanding ∧ (SendQueue.doSend c).accepted = c.accepted := by
  unfold SendQueue.doSend
  split
  · exact ⟨rfl, rfl, rfl⟩
  · split_ifs <;> exact ⟨rfl, rfl, rfl⟩

theorem Inv.asyncWrite (inv : Inv conn s) (next : SendQueue.step s.sender .asyncWrite = some c) :
    Inv conn { s with sender := c, pending := s.pending ++ (s.sender.sendPack.map buff).toList } := by
  have queue := inv.queue.step (by simp [SendQueue.StaysOpen]) next
  simp only [SendQueue.step] at next
  split_ifs at next with none'
  obtain ⟨pack, taken, rfl⟩ := Option.map_eq_some_iff.1 next
  obtain ⟨pack', rest', whole, taken', free⟩ := issues inv.queue none'
  obtain rfl := Option.some.inj (taken.symm.trans taken')
  have empty : s.pending = [] := by
    have pending := inv.pending
    rw [free] at pending
    exact List.forall₂_nil_right_iff.1 pending
  refine ⟨queue, ?_, ?_, inv.given, inv.used⟩
  · dsimp only
    rw [free, taken, empty]
    exact .cons (List.suffix_refl _) .nil
  · intro reads
    obtain ⟨done, rest, sync⟩ := inv.sync reads
    refine ⟨done, rest, sync.accepted, sync.given, ?_, sync.body⟩
    have bytes := sync.bytes
    rw [unissued, free, whole, empty] at bytes
    dsimp only [unissued]
    rw [free, whole, taken, empty]
    simpa using bytes

theorem Inv.handWrite (inv : Inv conn s) {i : Nat} (done' : s.pending[i]? = some [])
    (next : SendQueue.step s.sender (.handWrite i) = some c) : Inv conn { s with sender := c, pending := s.pending.eraseIdx i } := by
  have queue := inv.queue.step (by simp [SendQueue.StaysOpen]) next
  obtain ⟨pack, mem, rfl⟩ := Option.map_eq_some_iff.1 next
  obtain ⟨rfl, one⟩ := outstanding_one inv.queue mem
  have pending : s.pending = [[]] := by
    have pending := inv.pending
    rw [one] at pending
    obtain ⟨left, lefts, -, none', whole⟩ := List.forall₂_cons_right_iff.1 pending
    obtain rfl := List.forall₂_nil_right_iff.1 none'
    rw [whole] at done' ⊢
    obtain rfl := Option.some.inj done'
    rfl
  have whole := outstanding_unissued inv.queue
  rw [one] at whole
  have left : (s.sender.sendPackCollect.drop 1).drop (s.sender.outstanding.eraseIdx 0).length = unissued s.sender := by
    rw [one, whole]
    rfl
  refine ⟨queue, ?_, ?_, inv.given, inv.used⟩
  · show List.Forall₂ _ (s.pending.eraseIdx 0) (s.sender.outstanding.eraseIdx 0)
    rw [pending, one]
    exact .nil
  · intro reads
    obtain ⟨done, rest, sync⟩ := inv.sync reads
    refine ⟨done, rest, sync.accepted, sync.given, ?_, sync.body⟩
    have bytes := sync.bytes
    have still := congrArg (List.flatMap buff) left
    rw [← still, pending] at bytes
    dsimp only
    rw [pending]
    exact bytes

theorem Inv.transfer (inv : Inv conn s) {i n : Nat} {left : List UInt8} (found : s.pending[i]? = some left) :
    Inv conn { s with pending := s.pending.set i (left.drop n), wire := s.wire ++ left.take n } := by
  have aligned := inv.pending.length_eq
  obtain ⟨rfl, pack, one, pending⟩ : i = 0 ∧ ∃ pack, s.sender.outstanding = [pack] ∧ s.pending = [left] := by
    have inside := (List.getElem?_eq_some_iff.1 found).1
    obtain ⟨rfl, one⟩ := outstanding_one inv.queue (List.getElem?_eq_getElem (aligned ▸ inside))
    refine ⟨rfl, _, one, ?_⟩
    rw [one] at aligned
    obtain ⟨left', whole⟩ := List.length_eq_one_iff.1 aligned
    rw [whole] at found ⊢
    rw [Option.some.inj found]
  have suffix := inv.pending
  rw [one, pending] at suffix
  obtain ⟨here, -⟩ := List.forall₂_cons.1 suffix
  rw [pending]
  refine ⟨inv.queue, ?_, ?_, inv.given, inv.used⟩
  · dsimp only
    rw [one]
    exact .cons ((List.drop_suffix n left).trans here) .nil
  · intro reads
    obtain ⟨done, rest, sync⟩ := inv.sync reads
    refine ⟨done, rest, sync.accepted, sync.given, ?_, sync.body⟩
    have bytes := sync.bytes
    rw [pending] at bytes
    have pieces : left.take n ++ left.drop n = left := List.take_append_drop n left
    rw [← bytes]
    dsimp only
    simp only [List.set_cons_zero, List.flatten_cons, List.flatten_nil, List.append_nil]
    conv_rhs => rw [← pieces]
    simp only [List.append_assoc]

theorem Inv.arrive (inv : Inv conn s) (n : Nat) :
    Inv conn { s with wire := s.wire.drop n, reader := { s.reader with stream := s.reader.stream ++ s.wire.take n } } := by
  refine ⟨inv.queue, inv.pending, ?_, inv.given, inv.used⟩
  intro reads
  obtain ⟨done, rest, sync⟩ := inv.sync reads
  refine ⟨done, rest, sync.accepted, sync.given, ?_, sync.body⟩
  rw [← sync.bytes]
  conv_rhs => rw [← List.take_append_drop n s.wire]
  simp only [Reader.consumed, List.append_assoc]

theorem used_close (s : NetService) (c : Conn) : (Service.close s c).used = s.used := by
  unfold Service.close
  split_ifs <;> rfl

theorem Inv.close (inv : Inv conn s) (reading : s.reader.reading ≠ .idle) : Inv conn (close conn s) := by
  refine ⟨inv.queue, inv.pending, fun reads => absurd rfl reads, ?_, ?_⟩
  · show Delivery.given conn (inbox (Service.close s.service conn)) <+: _
    rw [inbox_close]
    exact inv.given
  · intro _
    show (Service.close s.service conn).used conn = true
    rw [used_close]
    exact inv.used reading

/-- The head of the first pack that is not received has come. -/
theorem Sync.head (sync : Sync conn s done rest) (reading : s.reader.reading = .head) (enough : Net.PackHead.size ≤ s.reader.stream.length) :
    ∃ p rest', rest = p :: rest' ∧ s.reader.stream.take Net.PackHead.size = (head p).bytes := by
  have bytes := sync.bytes
  rw [Reader.consumed, if_neg (by rw [reading]; decide), List.nil_append, List.append_assoc, List.append_assoc] at bytes
  cases rest with
  | nil =>
    have none' := (List.append_eq_nil_iff.1 bytes).1
    rw [none'] at enough
    cases enough
  | cons p rest' =>
    refine ⟨p, rest', rfl, ?_⟩
    have front := congrArg (List.take Net.PackHead.size) bytes
    rw [List.take_append_of_le_length enough, List.flatMap_cons, buff_eq, List.append_assoc, ← (head p).length_bytes, List.take_left] at front
    rw [← front, (head p).length_bytes]

theorem Inv.readHead (inv : Inv conn s) (reading : s.reader.reading = .head) (enough : Net.PackHead.size ≤ s.reader.stream.length) :
    Inv conn (handleHead conn { s with reader := { s.reader with stream := s.reader.stream.drop Net.PackHead.size } }
      (s.reader.stream.take Net.PackHead.size)) ∧
    (handleHead conn { s with reader := { s.reader with stream := s.reader.stream.drop Net.PackHead.size } }
      (s.reader.stream.take Net.PackHead.size)).reader.reading = .body := by
  obtain ⟨done, rest, sync⟩ := inv.sync (by rw [reading]; decide)
  obtain ⟨p, rest', rfl, front⟩ := sync.head reading enough
  have same : Net.PackHead.ofBytes (s.reader.stream.take Net.PackHead.size) = head p := by
    rw [front]
    simpa using (head p).ofBytes_bytes []
  have passes : handleHead conn { s with reader := { s.reader with stream := s.reader.stream.drop Net.PackHead.size } }
      (s.reader.stream.take Net.PackHead.size) =
        { s with reader := ⟨head p, .body, s.reader.stream.drop Net.PackHead.size⟩ } := by
    rw [handleHead, same]
    rfl
  rw [passes]
  refine ⟨⟨inv.queue, inv.pending, fun _ => ⟨done, p :: rest', sync.accepted, sync.given, ?_, fun _ => ⟨p, rest', rfl, rfl⟩⟩, inv.given,
    fun _ => inv.used (by rw [reading]; decide)⟩, rfl⟩
  rw [← sync.bytes]
  have before : s.reader.consumed = [] := by rw [Reader.consumed, if_neg (by rw [reading]; decide)]
  have after : Reader.consumed ⟨head p, .body, s.reader.stream.drop Net.PackHead.size⟩ = s.reader.stream.take Net.PackHead.size := by
    rw [front]
    rfl
  rw [before]
  dsimp only
  rw [after, List.take_append_drop]
  rfl

/-- The body of the first pack that is not received has come. -/
theorem Inv.readBody (inv : Inv conn s) (reading : s.reader.reading = .body)
    (enough : s.reader.m_Head.datasize.toNat ≤ s.reader.stream.length) :
    Inv conn (handleBody conn { s with reader := { s.reader with stream := s.reader.stream.drop s.reader.m_Head.datasize.toNat } }
      (s.reader.stream.take s.reader.m_Head.datasize.toNat)) := by
  obtain ⟨done, rest, sync⟩ := inv.sync (by rw [reading]; decide)
  obtain ⟨p, rest', rfl, same⟩ := sync.body reading
  have bytes := sync.bytes
  rw [Reader.consumed, if_pos reading, same, List.flatMap_cons, buff_eq, List.append_assoc, List.append_assoc, List.append_assoc,
    List.append_assoc] at bytes
  have body := List.append_cancel_left bytes
  have data : s.reader.stream.take s.reader.m_Head.datasize.toNat = (received p).data := by
    have front := congrArg (List.take s.reader.m_Head.datasize.toNat) body
    rw [List.take_append_of_le_length enough, same, ← length_received, List.take_left] at front
    rw [← front, same, length_received]
  have left : s.reader.stream.drop s.reader.m_Head.datasize.toNat ++ (s.wire ++ (s.pending.flatten ++
      (unissued s.sender).flatMap buff)) = rest'.flatMap buff := by
    have behind := congrArg (List.drop s.reader.m_Head.datasize.toNat) body
    rw [List.drop_append_of_le_length enough, same, ← length_received, List.drop_left] at behind
    rw [← behind, same, length_received]
  have pack : (⟨s.reader.m_Head.messageid, s.reader.stream.take s.reader.m_Head.datasize.toNat, s.reader.m_Head.roleid⟩ : NetPack) =
      received p := by
    rw [data, same]
    rfl
  have now : Delivery.given conn (inbox { s.service with packCollect := s.service.packCollect ++ [(conn, received p)] }) =
      (done ++ [p]).map received := by
    have added : inbox { s.service with packCollect := s.service.packCollect ++ [(conn, received p)] } =
        inbox s.service ++ [(conn, received p)] := (List.append_assoc _ _ _).symm
    rw [added, given_append, sync.given, List.map_append]
    simp [Delivery.given]
  have accepted : s.sender.accepted = (done ++ [p]) ++ rest' := by
    rw [sync.accepted, List.append_assoc]
    rfl
  rw [handleBody]
  dsimp only
  rw [pack]
  refine ⟨inv.queue, inv.pending, fun _ => ⟨done ++ [p], rest', accepted, now, ?_, fun body => by cases body⟩, ?_,
    fun _ => inv.used (by rw [reading]; decide)⟩
  · have none' : (read { s.reader with stream := s.reader.stream.drop s.reader.m_Head.datasize.toNat }).consumed = [] := rfl
    dsimp only
    rw [none', List.nil_append, List.append_assoc, List.append_assoc]
    exact left
  · show Delivery.given conn (inbox { s.service with packCollect := _ }) <+: s.sender.accepted.map received
    rw [now, accepted, @List.map_append _ _ received _ rest']
    exact List.prefix_append _ _

theorem reading_of_complete (complete : completeRead conn s = some s') :
    (s.reader.reading = .head ∧ Net.PackHead.size ≤ s.reader.stream.length ∧ s' = handleHead conn
        { s with reader := { s.reader with stream := s.reader.stream.drop Net.PackHead.size } } (s.reader.stream.take Net.PackHead.size)) ∨
    (s.reader.reading = .body ∧ s.reader.m_Head.datasize.toNat ≤ s.reader.stream.length ∧ s' = handleBody conn
        { s with reader := { s.reader with stream := s.reader.stream.drop s.reader.m_Head.datasize.toNat } }
        (s.reader.stream.take s.reader.m_Head.datasize.toNat)) := by
  unfold completeRead at complete
  dsimp only at complete
  cases reading : s.reader.reading with
  | idle =>
    rw [reading] at complete
    cases complete
  | ended =>
    rw [reading] at complete
    cases complete
  | head =>
    rw [reading] at complete
    dsimp only at complete
    split_ifs at complete with few
    exact .inl ⟨rfl, not_lt.1 few, (Option.some.inj complete).symm⟩
  | body =>
    rw [reading] at complete
    dsimp only at complete
    split_ifs at complete with few
    exact .inr ⟨rfl, not_lt.1 few, (Option.some.inj complete).symm⟩

theorem used_closeOne (s : NetService) (c : Conn) : (closeOne s c).used = s.used := by
  unfold closeOne
  split <;> rfl

/-- A connection that exists goes on to do so. -/
theorem used_step {s s' : NetService} {a : Service.Act} {c : Conn} (next : Service.step s a = some s') (used : s.used c = true) :
    s'.used c = true := by
  have set : ∀ c', Function.update s.used c' true c = true := by
    intro c'
    rw [Function.update_apply]
    split_ifs
    · rfl
    · exact used
  cases a with
  | handleConnect c' endpoint =>
    simp only [Service.step] at next
    split_ifs at next
    cases next
    exact set c'
  | acceptFailed c' =>
    simp only [Service.step] at next
    split_ifs at next
    cases next
    rw [used_close]
    exact set c'
  | connectFailed c' address =>
    simp only [Service.step] at next
    split_ifs at next
    cases next
    rw [used_close]
    exact set c'
  | receivePack c' pack =>
    simp only [Service.step] at next
    split_ifs at next
    cases next
    exact used
  | close c' =>
    simp only [Service.step] at next
    split_ifs at next
    cases next
    rw [used_close]
    exact used
  | disconnect addr =>
    simp only [Service.step] at next
    split at next
    · cases next
      exact used
    · cases next
      rw [used_close]
      exact used
  | update =>
    cases next
    unfold Service.update
    split
    · exact used
    · exact used
    · exact used
    · exact used
    · exact used
    · show (closeOne s _).used c = true
      rw [used_closeOne]
      exact used
    · exact used

theorem Inv.service (inv : Inv conn s) {a : Service.Act} {service : NetService} (honest : forged conn a = false)
    (next : Service.step s.service a = some service) :
    Inv conn { s with service := service, reader := connected conn s.reader a } := by
  have same := inbox_step next honest
  have given : Delivery.given conn (inbox service) <+: s.sender.accepted.map received := by
    rw [same]
    exact inv.given
  have kept : Inv conn { s with service := service } := by
    refine ⟨inv.queue, inv.pending, ?_, given, fun reading => used_step next (inv.used reading)⟩
    intro reads
    obtain ⟨done, rest, sync⟩ := inv.sync reads
    exact ⟨done, rest, sync.accepted, same.trans sync.given, sync.bytes, sync.body⟩
  by_cases mine : ∃ endpoint, a = .handleConnect conn endpoint
  · obtain ⟨endpoint, rfl⟩ := mine
    simp only [Service.step] at next
    split_ifs at next with old
    have idle : s.reader.reading = .idle := by
      by_contra reading
      exact old (inv.used reading)
    have used : service.used conn = true := by
      cases next
      exact Function.update_self _ _ _
    rw [connected, if_pos rfl]
    refine ⟨inv.queue, inv.pending, fun _ => ?_, given, fun _ => used⟩
    obtain ⟨done, rest, sync⟩ := inv.sync (by rw [idle]; decide)
    refine ⟨done, rest, sync.accepted, same.trans sync.given, ?_, fun body => by cases body⟩
    have bytes := sync.bytes
    rw [Reader.consumed, if_neg (by rw [idle]; decide)] at bytes
    exact bytes
  · have unread : connected conn s.reader a = s.reader := by
      cases a with
      | handleConnect c endpoint =>
        rw [connected, if_neg]
        rintro rfl
        exact mine ⟨endpoint, rfl⟩
      | _ => rfl
    rw [unread]
    exact kept

theorem Inv.init : Inv conn System.init := by
  refine ⟨SendQueue.Inv.init, .nil, fun _ => ⟨[], [], rfl, rfl, rfl, fun body => by cases body⟩, List.nil_prefix, fun idle => absurd rfl idle⟩

/-- Every step keeps what is on its way. -/
theorem Inv.step (inv : Inv conn s) {a : Act} (stays : StaysOpen s a) (next : step conn s a = some s') : Inv conn s' := by
  cases a with
  | sender a =>
    cases a with
    | send messageid pdata roleid =>
      cases next
      exact inv.send messageid pdata roleid
    | doSend =>
      obtain ⟨c, sends, rfl⟩ := Option.map_eq_some_iff.1 next
      have queue := inv.queue.step (by simp [SendQueue.StaysOpen]) sends
      simp only [SendQueue.step] at sends
      split_ifs at sends
      cases sends
      obtain ⟨same, writes, accepted⟩ := doSend_same { s.sender with callers := s.sender.callers - 1 }
      exact inv.sender queue same writes accepted
    | asyncWrite =>
      obtain ⟨c, issued, rfl⟩ := Option.map_eq_some_iff.1 next
      exact inv.asyncWrite issued
    | handWrite i =>
      simp only [Delivery.step] at next
      split_ifs at next with done
      obtain ⟨c, written, rfl⟩ := Option.map_eq_some_iff.1 next
      exact inv.handWrite done written
    | close => exact absurd rfl stays
  | transfer i n =>
    simp only [Delivery.step] at next
    split at next
    · cases next
    · next found =>
      cases next
      exact inv.transfer found
  | arrive n =>
    cases next
    exact inv.arrive n
  | read =>
    rcases reading_of_complete next with ⟨reading, enough, rfl⟩ | ⟨reading, enough, rfl⟩
    · exact (inv.readHead reading enough).1
    · exact inv.readBody reading enough
  | readFailed =>
    simp only [Delivery.step] at next
    split at next
    · cases next
    · cases next
    · next reading _ =>
      cases next
      exact inv.close reading
  | service a =>
    simp only [Delivery.step] at next
    split_ifs at next with honest
    obtain ⟨service, moved, rfl⟩ := Option.map_eq_some_iff.1 next
    exact inv.service (Bool.eq_false_iff.2 honest) moved

end Steps

section Delivery

variable {conn : Conn} {s : System} {as : List Act}

/-- Nothing is left to do but to send another pack: no section of the sender is pending, no byte is under way, and the outstanding read
waits for more. -/
structure AtRest (conn : Conn) (s : System) : Prop where
  callers : s.sender.callers = 0
  writers : s.sender.writers = 0
  outstanding : s.sender.outstanding = []
  wire : s.wire = []
  reading : s.reader.reading = .head ∨ s.reader.reading = .body
  waits : completeRead conn s = none

/-- The bytes that the outstanding read waits for are more than there are. -/
theorem AtRest.short (rest : AtRest conn s) : s.reader.consumed.length + s.reader.stream.length <
    Net.PackHead.size + if s.reader.reading = .body then s.reader.m_Head.datasize.toNat else 0 := by
  have waits := rest.waits
  unfold completeRead at waits
  rcases rest.reading with reading | reading
  · rw [reading] at waits
    dsimp only at waits
    split_ifs at waits with few
    rw [Reader.consumed, reading, if_neg (by decide), if_neg (by decide), List.length_nil]
    omega
  · rw [reading] at waits
    dsimp only at waits
    split_ifs at waits with few
    rw [Reader.consumed, reading, if_pos rfl, if_pos rfl, Net.PackHead.length_bytes]
    omega

theorem Inv.atRest (inv : Inv conn s) (rest : AtRest conn s) : Delivery.given conn (inbox s.service) = s.sender.accepted.map received := by
  obtain ⟨done, left, sync⟩ := inv.sync (by rcases rest.reading with reading | reading <;> rw [reading] <;> decide)
  have quiet : s.sender.bSending = false := by
    by_contra sending
    obtain ⟨pack, queue, -, -, ⟨one, -⟩ | ⟨-, one⟩⟩ := inv.queue.busy (by simpa using sending)
    · rw [rest.writers] at one
      cases one
    · rw [rest.outstanding] at one
      cases one
  have queue : s.sender.sendPackCollect = [] := by
    by_contra waiting
    rcases inv.queue.served waiting with sending | calls
    · rw [quiet] at sending
      cases sending
    · rw [rest.callers] at calls
      exact absurd calls (Nat.lt_irrefl 0)
  have pending : s.pending = [] := by
    have pending := inv.pending
    rw [rest.outstanding] at pending
    exact List.forall₂_nil_right_iff.1 pending
  have none' : left = [] := by
    cases left with
    | nil => rfl
    | cons p left =>
      have length := congrArg List.length sync.bytes
      rw [rest.wire, pending, unissued, queue, List.flatMap_cons, @List.length_append _ (buff p), length_buff] at length
      simp only [List.drop_nil, List.flatMap_nil, List.append_nil, List.flatten_nil, List.length_append] at length
      have short := rest.short
      split_ifs at short with body
      · obtain ⟨q, left', whole, same⟩ := sync.body body
        obtain rfl := List.head_eq_of_cons_eq whole
        rw [same] at short
        omega
      · omega
  rw [sync.given, sync.accepted, none', List.append_nil]

/-- **From end to end.** In every interleaving of the threads of both sides and of the bytes between them, as long as the sending connection
stays open, the packs that were fired, and those the other side's service was given, are a prefix of those accepted; no head is refused;
and at rest all accepted packs have come. -/
theorem delivery (run : Runs (step conn) StaysOpen System.init as s) :
    given conn s.service.fired <+: s.sender.accepted.map received ∧
      given conn (inbox s.service) <+: s.sender.accepted.map received ∧
      (∀ s', completeRead conn s = some s' → s'.reader.reading ≠ .ended) ∧
      (AtRest conn s → given conn (inbox s.service) = s.sender.accepted.map received) := by
  have inv : Inv conn s := run.invariant (Inv conn) Inv.init fun _ _ _ inv stays next => inv.step stays next
  have fired : given conn s.service.fired <+: given conn (inbox s.service) := by
    rw [inbox, given_append, given_append, List.append_assoc]
    exact List.prefix_append _ _
  refine ⟨fired.trans inv.given, inv.given, ?_, inv.atRest⟩
  intro s' complete
  rcases reading_of_complete complete with ⟨reading, enough, rfl⟩ | ⟨-, -, rfl⟩
  · rw [(inv.readHead reading enough).2]
    decide
  · exact fun is => by cases is

/-- Two packs, the second accepted while the first is being written. -/
theorem delivery_two : ∃ s : System, (given 7 (inbox s.service) = [⟨1, [5], 0⟩] ∧ s.sender.accepted = [⟨1, [5], 0⟩, ⟨2, [6], 0⟩]) ∧
    given 7 (inbox s.service) <+: s.sender.accepted.map received := by
  let as : List Act := [.service (.handleConnect 7 "a"), .sender (.send 1 (some [5]) 0), .sender .doSend, .sender .asyncWrite,
    .transfer 0 10, .arrive 4, .sender (.send 2 (some [6]) 0), .sender .doSend, .transfer 0 10, .sender (.handWrite 0), .arrive 20,
    .read, .read, .service .update]
  obtain ⟨s, run, now⟩ : ∃ s, Runs (step 7) StaysOpen System.init as s ∧
      (given 7 (inbox s.service) = [⟨1, [5], 0⟩] ∧ s.sender.accepted = [⟨1, [5], 0⟩, ⟨2, [6], 0⟩]) := by
    apply Runs.exists_of_decide
    decide
  exact ⟨s, now, (delivery run).2.1⟩

end Delivery

end GameServer.LibGame.Delivery

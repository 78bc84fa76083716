import GameServer.Lib.Run
import GameServer.Net.WebFrames

/-!
# Sending through xlib's `NetConnect`

`NetConnect::Send` hands the encoded pack to `async_write_some`, one write for each call, and
`WriteReady` looks at nothing but the error. The socket takes the outstanding writes in the
order they were issued and completes each with any non-empty prefix of its buffer. The buffer
of a write is what it was when the write was issued.

A write that transfers less than its buffer leaves a gap in the stream that nothing fills, so
the stream is the encoded packs one after the other if and only if no write was short
(`send_stream`).
-/

namespace GameServer.Net.Sending

open GameServer.Lib

inductive SocketType where
  | TYPE_SOCKET
  | TYPE_WEBSOCKET
  deriving DecidableEq, Repr

/-- `WebSocketProtocol::BINARY_FRAME`. -/
def BINARY_FRAME : UInt8 := 0x82

/-- `NetConnect` as far as sending goes. -/
structure NetConnect where
  type : SocketType
  bClose : Bool
  /-- `_pSocket` is not null. -/
  hasSocket : Bool
  /-- The buffers of the `async_write_some`s that have not completed. -/
  outstanding : List (List UInt8)
  wire : List UInt8
  deriving DecidableEq, Repr

/-- A connection that can send. -/
def NetConnect.opened (type : SocketType) : NetConnect := ⟨type, false, true, [], []⟩

/-- The buffer of `Pack`, or of `WritePack` for a WebSocket. -/
def encode (type : SocketType) (m : Message) : List UInt8 :=
  match type with
  | .TYPE_SOCKET => m.netPack.pBuff
  | .TYPE_WEBSOCKET => WebSocket.makeFrame m.netPack.pBuff BINARY_FRAME

/-- `NetConnect::Send`. -/
def send (c : NetConnect) (m : Message) : NetConnect :=
  if c.bClose then c
  else if !c.hasSocket then c
  else { c with outstanding := c.outstanding ++ [encode c.type m] }

inductive Act where
  | send (m : Message)
  /-- The oldest write completes with this many bytes; `WriteReady` does nothing. -/
  | writeReady (bytes_transferred : Nat)
  deriving DecidableEq, Repr

def step (c : NetConnect) : Act → Option NetConnect
  | .send m => some (send c m)
  | .writeReady n => match c.outstanding with
    | [] => none
    | buffer :: rest =>
      if 0 < n ∧ n ≤ buffer.length then some { c with outstanding := rest, wire := c.wire ++ buffer.take n } else none

/-- The messages of the `Send` calls. -/
def sends : List Act → List Message
  | [] => []
  | .send m :: as => m :: sends as
  | .writeReady _ :: as => sends as

/-- A write that completes transfers its whole buffer. -/
def Whole (c : NetConnect) : Act → Prop
  | .send _ => True
  | .writeReady n => ∀ buffer ∈ c.outstanding.head?, n = buffer.length

section Stream

variable {type : SocketType} {as bs : List Act} {c : NetConnect} {ok : NetConnect → Act → Prop}

theorem sends_append (as bs : List Act) : sends (as ++ bs) = sends as ++ sends bs := by
  induction as with
  | nil => rfl
  | cons a as ih =>
    cases a with
    | send m => simp only [List.cons_append, sends, ih]
    | writeReady n => simp only [List.cons_append, sends, ih]

/-- What is written or will be. -/
def stream (c : NetConnect) : List UInt8 := c.wire ++ c.outstanding.flatten

/-- The packs of the `Send` calls, whole and in order. -/
def packs (type : SocketType) (as : List Act) : List UInt8 := (sends as).flatMap (encode type)

/-- The connection stays open. -/
structure Open (type : SocketType) (c : NetConnect) : Prop where
  type_eq : c.type = type
  bClose : c.bClose = false
  hasSocket : c.hasSocket = true

theorem Open.send_eq (o : Open type c) (m : Message) :
    send c m = { c with outstanding := c.outstanding ++ [encode type m] } := by
  simp [send, o.bClose, o.hasSocket, o.type_eq]

theorem step_writeReady {d : NetConnect} {n : Nat} (next : step c (.writeReady n) = some d) :
    ∃ buffer rest, c.outstanding = buffer :: rest ∧ 0 < n ∧ n ≤ buffer.length ∧
      d = { c with outstanding := rest, wire := c.wire ++ buffer.take n } := by
  simp only [step] at next
  split at next
  · cases next
  · next buffer rest outstanding =>
    split_ifs at next with bounds
    exact ⟨buffer, rest, outstanding, bounds.1, bounds.2, (Option.some.inj next).symm⟩

theorem Open.of_runs (run : Runs step ok (.opened type) as c) : Open type c := by
  refine run.invariant (Open type) ⟨rfl, rfl, rfl⟩ ?_
  intro c a d o _ next
  cases a with
  | send m =>
    rw [step, o.send_eq m] at next
    obtain rfl := Option.some.inj next
    exact ⟨o.type_eq, o.bClose, o.hasSocket⟩
  | writeReady n =>
    obtain ⟨buffer, rest, -, -, -, rfl⟩ := step_writeReady next
    exact ⟨o.type_eq, o.bClose, o.hasSocket⟩

theorem packs_snoc (m : Message) : packs type (as ++ [.send m]) = packs type as ++ encode type m := by
  rw [packs, sends_append, List.flatMap_append]
  show _ ++ (encode type m ++ []) = _
  rw [List.append_nil]
  rfl

theorem packs_snoc_writeReady (n : Nat) : packs type (as ++ [.writeReady n]) = packs type as := by
  rw [packs, sends_append]
  show (sends as ++ []).flatMap _ = _
  rw [List.append_nil]
  rfl

theorem Open.stream_send (o : Open type c) (m : Message) : stream (send c m) = stream c ++ encode type m := by
  rw [o.send_eq]
  simp [stream, List.append_assoc]

/-- With whole writes nothing is lost. -/
theorem stream_of_whole (run : Runs step Whole (.opened type) as c) : stream c = packs type as := by
  induction run with
  | refl => rfl
  | @snoc as a c d before whole next ih =>
    cases a with
    | send m =>
      obtain rfl := Option.some.inj next
      rw [(Open.of_runs before).stream_send, ih, packs_snoc]
    | writeReady n =>
      obtain ⟨buffer, rest, outstanding, -, -, rfl⟩ := step_writeReady next
      have all : n = buffer.length := whole buffer (by rw [outstanding]; rfl)
      rw [packs_snoc_writeReady, ← ih]
      simp [stream, outstanding, all, List.append_assoc]

/-- The stream is never longer than the packs, and a short write makes it shorter for good. -/
theorem whole_of_length (run : Runs step ok (.opened type) as c) :
    (stream c).length ≤ (packs type as).length ∧
      ((stream c).length = (packs type as).length → Runs step Whole (.opened type) as c) := by
  induction run with
  | refl => exact ⟨Nat.le_refl _, fun _ => .refl⟩
  | @snoc as a c d before _ next ih =>
    obtain ⟨le, whole⟩ := ih
    cases a with
    | send m =>
      have same := next
      obtain rfl := Option.some.inj next
      rw [(Open.of_runs before).stream_send, packs_snoc, List.length_append, List.length_append]
      refine ⟨Nat.add_le_add_right le _, ?_⟩
      intro equal
      exact (whole (Nat.add_right_cancel equal)).snoc trivial same
    | writeReady n =>
      have same := next
      obtain ⟨buffer, rest, outstanding, -, most, rfl⟩ := step_writeReady next
      have before' : (stream c).length = c.wire.length + (buffer.length + rest.flatten.length) := by
        simp only [stream, outstanding, List.flatten_cons, List.length_append]
      have after : (stream { c with outstanding := rest, wire := c.wire ++ buffer.take n }).length =
          c.wire.length + n + rest.flatten.length := by
        simp only [stream, List.length_append, List.length_take, Nat.min_eq_left most]
      rw [packs_snoc_writeReady, after]
      constructor
      · omega
      · intro equal
        refine (whole (by omega)).snoc ?_ same
        intro buffer' head
        rw [outstanding] at head
        obtain rfl := Option.some.inj head
        omega

/-- **The stream** of an open connection, what was written followed by what the writes under way
were given, is the encoded packs in the order of the `Send` calls if and only if every write
that completed transferred its whole buffer. -/
theorem send_stream (run : Runs step (fun _ _ => True) (.opened type) as c) :
    c.wire ++ c.outstanding.flatten = (sends as).flatMap (encode type) ↔ Runs step Whole (.opened type) as c := by
  constructor
  · intro equal
    exact (whole_of_length run).2 (congrArg List.length equal)
  · exact stream_of_whole

end Stream

/-- Two packs, the second sent before the first is written. -/
def twoSends (n : Nat) : List Act :=
  [.send ⟨1, 2, [7]⟩, .send ⟨3, 4, []⟩, .writeReady n, .writeReady 14]

theorem send_stream_two : ∃ c, Runs step Whole (.opened .TYPE_SOCKET) (twoSends 15) c ∧
    c.wire = encode .TYPE_SOCKET ⟨1, 2, [7]⟩ ++ encode .TYPE_SOCKET ⟨3, 4, []⟩ := by
  obtain ⟨c, run, done, wire⟩ : ∃ c, Runs step (fun _ _ => True) (.opened .TYPE_SOCKET) (twoSends 15) c ∧
      c.outstanding = [] ∧ c.wire = encode .TYPE_SOCKET ⟨1, 2, [7]⟩ ++ encode .TYPE_SOCKET ⟨3, 4, []⟩ := by
    apply Runs.exists_of_decide
    decide
  refine ⟨c, (send_stream run).1 ?_, wire⟩
  rw [done, wire]
  rfl

/-- One byte of the first pack is written, and then the second. -/
theorem send_stream_short : ∃ c, Runs step (fun _ _ => True) (.opened .TYPE_SOCKET) (twoSends 1) c ∧
    c.outstanding = [] ∧ c.wire ≠ (sends (twoSends 1)).flatMap (encode .TYPE_SOCKET) := by
  apply Runs.exists_of_decide
  decide

end GameServer.Net.Sending

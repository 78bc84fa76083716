import GameServer.Lib.Run
import GameServer.Net.WebSocket
import GameServer.Text.Splitting

/-!
# The opening handshake

A new connection reads into `handshake` until it is known what the peer speaks: packs, when the first bytes are a head, or
WebSocket, when all bytes so far are a request (`isWebSocketProtocol`). `find_first_of` looks for one of the characters of
a word, not for the word, so other texts count as requests (`isWebSocketProtocol_iff`).

The buffer is as long as a head, and later 1000 bytes. A peer that sends 1000 bytes that are not a request is read from
with an empty buffer, again and again; otherwise every read asks for something (`handshake_progress`).
-/

namespace GameServer.Net.Opening

open GameServer.Lib GameServer.Text

/-- The characters of a literal. -/
def chars (literal : String) : List UInt8 := literal.toList.map fun c => UInt8.ofNat c.toNat

/-- Whether `find_first_of` finds something. -/
def findFirstOf (data word : List UInt8) : Bool := data.any fun b => word.contains b

/-- `WebSocketProtocol::isWebSocketProtocol`. -/
def isWebSocketProtocol (data : List UInt8) : Bool :=
  findFirstOf data (chars "Sec-WebSocket-Key") && findFirstOf data (chars "GET") &&
    (SplitStringHasEmpty (chars "\r\n\r\n") data).length == 2

section Protocol

variable {data word : List UInt8}

theorem findFirstOf_iff : findFirstOf data word = true ↔ ∃ b ∈ data, b ∈ word := by
  simp [findFirstOf]

/-- Who has the word has one of its characters. -/
theorem findFirstOf_of_inside (some' : word ≠ []) (inside : word <:+: data) : findFirstOf data word = true := by
  obtain ⟨b, mem⟩ := List.exists_mem_of_ne_nil word some'
  exact findFirstOf_iff.2 ⟨b, inside.subset mem, mem⟩

/-- Two parts mean one separator. -/
theorem length_split (data : List UInt8) :
    (SplitStringHasEmpty (chars "\r\n\r\n") data).length = occurrences (chars "\r\n\r\n") data + 1 := by
  have some' : chars "\r\n\r\n" ≠ [] := by decide
  rw [SplitStringHasEmpty_eq some' (by decide), length_pieces some']

theorem isWebSocketProtocol_eq : isWebSocketProtocol data = true ↔
    (findFirstOf data (chars "Sec-WebSocket-Key") = true ∧ findFirstOf data (chars "GET") = true) ∧
      occurrences (chars "\r\n\r\n") data = 1 := by
  unfold isWebSocketProtocol
  rw [Bool.and_eq_true, Bool.and_eq_true, beq_iff_eq, length_split]
  refine and_congr_right fun _ => ?_
  omega

/-- A request: both words, and one empty line. -/
structure Request (data : List UInt8) : Prop where
  key : chars "Sec-WebSocket-Key" <:+: data
  get : chars "GET" <:+: data
  once : occurrences (chars "\r\n\r\n") data = 1

/-- **Requests are recognised** exactly but for texts with one empty line and a character of each word, in which a word is
missing. -/
theorem isWebSocketProtocol_iff (data : List UInt8) : (isWebSocketProtocol data = true ↔ Request data) ↔
    ¬ (occurrences (chars "\r\n\r\n") data = 1 ∧ findFirstOf data (chars "Sec-WebSocket-Key") = true ∧
      findFirstOf data (chars "GET") = true ∧ ¬ (chars "Sec-WebSocket-Key" <:+: data ∧ chars "GET" <:+: data)) := by
  rw [isWebSocketProtocol_eq]
  constructor
  · rintro exact' ⟨once, first, second, missing⟩
    obtain ⟨key, get, -⟩ := exact'.1 ⟨⟨first, second⟩, once⟩
    exact missing ⟨key, get⟩
  · intro others
    constructor
    · rintro ⟨⟨first, second⟩, once⟩
      by_contra no
      exact others ⟨once, first, second, fun both => no ⟨both.1, both.2, once⟩⟩
    · rintro ⟨key, get, once⟩
      exact ⟨⟨findFirstOf_of_inside (by decide) key, findFirstOf_of_inside (by decide) get⟩, once⟩

/-- A text without either word is taken for a request. -/
theorem isWebSocketProtocol_text : isWebSocketProtocol (chars "PUT /Socket HTTP/1.1\r\n\r\n") = true ∧
    ¬ Request (chars "PUT /Socket HTTP/1.1\r\n\r\n") := by
  refine ⟨by decide +kernel, fun request => ?_⟩
  have get := request.get
  revert get
  decide +kernel

end Protocol

/-- `WebSocketProtocol::handshake`, as far as it decides whether there is an answer: the headers are the lines with one
`": "`, and a key and a host are among them. -/
def handshake (data : List UInt8) : Bool :=
  match SplitStringHasEmpty (chars "\r\n\r\n") data with
  | [head, _] =>
    let values := SplitStringHasEmpty (chars "\r\n") head
    let names := (values.map (SplitStringHasEmpty (chars ": "))).filterMap fun
      | [name, _] => some name
      | _ => none
    names.contains (chars "Sec-WebSocket-Key") && names.contains (chars "Host")
  | _ => false

inductive Phase where
  /-- A read into `handshake` from `off` on. -/
  | reading (off : Nat)
  /-- The socket is gone: there is no read. -/
  | idle
  /-- `TYPE_SOCKET`, reading the body of the first pack. -/
  | packs
  /-- `TYPE_WEBSOCKET`, reading the first frame. -/
  | frames
  | broken (message : String)
  deriving DecidableEq, Repr

/-- `NetConnect` up to the handshake. -/
structure NetConnect where
  handshake : List UInt8
  rsize : Nat
  /-- Whether `_pSocket` is there. -/
  socket : Bool
  phase : Phase
  deriving DecidableEq, Repr

namespace NetConnect

/-- `NetConnect::Handshake`. -/
def Handshake (c : NetConnect) (off : Nat) : NetConnect := { c with phase := if c.socket then .reading off else .idle }

/-- The bytes received. -/
def received (c : NetConnect) : List UInt8 := c.handshake.take c.rsize

/-- `NetConnect::OnHandShake`, after the read has filled the buffer. -/
def OnHandShake (c : NetConnect) (bytes_transferred : Nat) : NetConnect :=
  let c := { c with rsize := c.rsize + bytes_transferred }
  if c.rsize < PackHead.size then c.Handshake c.rsize
  else if (PackHead.ofBytes (c.handshake.take PackHead.size)).lawful then { c with phase := .packs }
  else
    let c := { c with handshake := if c.rsize = PackHead.size then WebSocket.resize c.handshake 1000 else c.handshake }
    if isWebSocketProtocol c.received && c.socket then
      { c with phase := if Opening.handshake c.received then .frames else .broken "handshake failed" }
    else c.Handshake c.rsize

end NetConnect

/-- A connection whose first read has been issued. -/
def start : NetConnect := ⟨List.replicate PackHead.size 0, 0, true, .reading 0⟩

inductive Action where
  /-- The read completes with these bytes. -/
  | read (bytes : List UInt8)
  /-- The read completes with an error. -/
  | error (message : String)
  /-- `handle_close`. -/
  | close
  deriving DecidableEq, Repr

/-- A read completes with some of the bytes it asked for; with none only if it asked for none. -/
def step (c : NetConnect) : Action → Option NetConnect
  | .read bytes => match c.phase with
    | .reading off =>
      if bytes.length ≤ c.handshake.length - off ∧ (bytes = [] → c.handshake.length = off) then
        some (NetConnect.OnHandShake
          { c with handshake := c.handshake.take off ++ (bytes ++ c.handshake.drop (off + bytes.length)) } bytes.length)
      else none
    | _ => none
  | .error message => match c.phase with
    | .reading _ => some { c with phase := .broken message }
    | _ => none
  | .close => some { c with socket := false }

/-- Any step may be taken. -/
def Any (_ : NetConnect) (_ : Action) : Prop := True

/-- The outstanding read asks for at least one byte, and for the rest of the buffer. -/
def Progress (c : NetConnect) : Prop := ∀ off, c.phase = .reading off → off < c.handshake.length

/-- The bytes do not fill the 1000 bytes of the buffer, or all of it is taken for a request. -/
def Meets (c : NetConnect) : Action → Prop
  | .read bytes => c.rsize + bytes.length = 1000 → c.socket = true → isWebSocketProtocol (c.received ++ bytes) = true
  | _ => True

/-- The reads so far: none is known to be a head or a request. -/
structure Reading (c : NetConnect) (off : Nat) : Prop where
  off : off = c.rsize
  size : c.rsize < PackHead.size ∧ c.handshake.length = PackHead.size ∨
    PackHead.size ≤ c.rsize ∧ c.rsize < 1000 ∧ c.handshake.length = 1000
  other : PackHead.size ≤ c.rsize → (PackHead.ofBytes (c.handshake.take PackHead.size)).lawful = false

/-- What holds when all reads have met the condition. -/
def Waiting (c : NetConnect) : Prop := ∀ off, c.phase = .reading off → Reading c off

section Steps

variable {c d : NetConnect} {a : Action} {bytes : List UInt8} {off : Nat}

theorem Waiting.progress (waiting : Waiting c) : Progress c := by
  intro off phase
  obtain ⟨rfl, size, -⟩ := waiting off phase
  omega

/-- Bytes that are read come after those received. -/
theorem stored (reading : Reading c off) (inside : bytes.length ≤ c.handshake.length - off) :
    (c.handshake.take off ++ (bytes ++ c.handshake.drop (off + bytes.length))).length = c.handshake.length ∧
      (c.handshake.take off ++ (bytes ++ c.handshake.drop (off + bytes.length))).take (off + bytes.length) =
        c.received ++ bytes := by
  obtain ⟨rfl, size, -⟩ := reading
  have length : (c.handshake.take c.rsize).length = c.rsize := by
    rw [List.length_take]
    omega
  constructor
  · simp only [List.length_append, length, List.length_drop]
    omega
  · rw [← List.append_assoc, List.take_left' (by rw [List.length_append, length])]
    rfl

theorem resize_longer {data : List UInt8} {n m : Nat} (longer : data.length ≤ n) (inside : m ≤ data.length) :
    (WebSocket.resize data n).length = n ∧ (WebSocket.resize data n).take m = data.take m := by
  unfold WebSocket.resize
  rw [List.take_of_length_le longer]
  constructor
  · rw [List.length_append, List.length_replicate]
    omega
  · exact List.take_append_of_le_length inside

/-- What `OnHandShake` does: it goes on reading before there is a whole head, or there is a head, or all bytes are a request,
or it goes on reading in the long buffer. -/
theorem OnHandShake_cases (reading : Reading c off) (data : List UInt8) (size : data.length = c.handshake.length)
    (inside : c.rsize + bytes.length ≤ data.length) (got : data.take (c.rsize + bytes.length) = c.received ++ bytes)
    (next : NetConnect.OnHandShake { c with handshake := data } bytes.length = d) :
    (c.rsize + bytes.length < PackHead.size ∧
      d = NetConnect.Handshake { c with handshake := data, rsize := c.rsize + bytes.length } (c.rsize + bytes.length)) ∨
    (c.rsize < PackHead.size ∧ d.phase = .packs) ∨
    (isWebSocketProtocol (c.received ++ bytes) = true ∧ ∀ off, d.phase ≠ .reading off) ∨
    ∃ long, long.length = 1000 ∧ PackHead.size ≤ c.rsize + bytes.length ∧ (isWebSocketProtocol (c.received ++ bytes) && c.socket) = false ∧
      (PackHead.ofBytes (long.take PackHead.size)).lawful = false ∧
      d = NetConnect.Handshake { c with handshake := long, rsize := c.rsize + bytes.length } (c.rsize + bytes.length) := by
  obtain ⟨-, sizes, other⟩ := reading
  have headSize : PackHead.size = 14 := rfl
  unfold NetConnect.OnHandShake at next
  dsimp only at next
  by_cases short : c.rsize + bytes.length < PackHead.size
  · rw [if_pos short] at next
    exact .inl ⟨short, next.symm⟩
  rw [if_neg short] at next
  by_cases lawful : (PackHead.ofBytes (data.take PackHead.size)).lawful = true
  · rw [if_pos lawful] at next
    refine .inr (.inl ⟨?_, by rw [← next]⟩)
    by_contra long
    have known := other (Nat.le_of_not_lt long)
    have same : data.take PackHead.size = c.handshake.take PackHead.size := by
      have front := congrArg (List.take PackHead.size) got
      rw [List.take_take, min_eq_left (by omega), NetConnect.received, List.take_append_of_le_length, List.take_take,
        min_eq_left (by omega)] at front
      · exact front
      · rw [List.length_take]
        omega
    rw [same, known] at lawful
    cases lawful
  rw [if_neg lawful] at next
  right; right
  obtain ⟨long, length, front, eq⟩ : ∃ long : List UInt8, long.length = 1000 ∧
      long.take (c.rsize + bytes.length) = data.take (c.rsize + bytes.length) ∧
      (if c.rsize + bytes.length = PackHead.size then WebSocket.resize data 1000 else data) = long := by
    refine ⟨_, ?_, ?_, rfl⟩
    · split_ifs with whole
      · exact (resize_longer (m := 0) (by omega) (Nat.zero_le _)).1
      · omega
    · split_ifs with whole
      · exact (resize_longer (by omega) inside).2
      · rfl
  rw [eq] at next
  have received : NetConnect.received { c with handshake := long, rsize := c.rsize + bytes.length } = c.received ++ bytes := by
    rw [← got, ← front]
    rfl
  have head : (PackHead.ofBytes (long.take PackHead.size)).lawful = false := by
    have same := congrArg (List.take PackHead.size) front
    rw [List.take_take, List.take_take, min_eq_left (by omega)] at same
    rw [same]
    simpa using lawful
  by_cases request : (isWebSocketProtocol (c.received ++ bytes) && c.socket) = true
  · left
    refine ⟨(Bool.and_eq_true _ _ ▸ request).1, fun off phase => ?_⟩
    rw [received, if_pos request] at next
    rw [← next] at phase
    dsimp only at phase
    split_ifs at phase
  · right
    rw [received, if_neg request] at next
    exact ⟨long, length, Nat.le_of_not_lt short, by simpa using request, head, next.symm⟩

/-- A read that completes. -/
theorem step_read (next : step c (.read bytes) = some d) (waiting : Waiting c) : Reading c c.rsize ∧ ∃ data,
    data.length = c.handshake.length ∧ c.rsize + bytes.length ≤ data.length ∧
      data.take (c.rsize + bytes.length) = c.received ++ bytes ∧ NetConnect.OnHandShake { c with handshake := data } bytes.length = d := by
  simp only [step] at next
  split at next
  · next off phase =>
    have reading := waiting off phase
    split_ifs at next with asked
    obtain ⟨length, got⟩ := stored reading asked.1
    obtain rfl := reading.off
    have progress := waiting.progress _ phase
    refine ⟨reading, _, length, ?_, got, Option.some.inj next⟩
    rw [length]
    omega
  · cases next

/-- A step that meets the condition. -/
theorem Waiting.step (waiting : Waiting c) (meets : Meets c a) (next : step c a = some d) : Waiting d := by
  cases a with
  | read bytes =>
    obtain ⟨reading, data, size, inside, got, next⟩ := step_read next waiting
    intro off phase
    obtain ⟨short, rfl⟩ | ⟨-, packs⟩ | ⟨-, others⟩ | ⟨long, length, enough, request, head, rfl⟩ :=
      OnHandShake_cases reading data size inside got next
    · have same : off = c.rsize + bytes.length := by
        simp only [NetConnect.Handshake] at phase
        split_ifs at phase
        exact (Phase.reading.inj phase).symm
      refine ⟨same, .inl ⟨short, ?_⟩, fun enough => absurd short (Nat.not_lt.2 enough)⟩
      have sizes := reading.size
      show data.length = PackHead.size
      omega
    · rw [packs] at phase
      cases phase
    · exact absurd phase (others off)
    · have both : off = c.rsize + bytes.length ∧ c.socket = true := by
        simp only [NetConnect.Handshake] at phase
        split_ifs at phase with socket
        exact ⟨(Phase.reading.inj phase).symm, socket⟩
      have room : c.rsize + bytes.length ≠ 1000 := by
        intro full
        rw [meets full both.2, both.2] at request
        cases request
      have sizes := reading.size
      refine ⟨both.1, .inr ⟨enough, ?_, length⟩, fun _ => head⟩
      show c.rsize + bytes.length < 1000
      have headSize : PackHead.size = 14 := rfl
      omega
  | error message =>
    simp only [Opening.step] at next
    split at next
    · rw [← Option.some.inj next]
      intro off phase
      cases phase
    · cases next
  | close =>
    simp only [Opening.step] at next
    rw [← Option.some.inj next]
    intro off phase
    obtain ⟨same, size, other⟩ := waiting off phase
    exact ⟨same, size, other⟩

/-- A step that does not meet it leaves a read with an empty buffer. -/
theorem Waiting.stuck (waiting : Waiting c) (fails : ¬ Meets c a) (next : Opening.step c a = some d) : ¬ Progress d := by
  cases a with
  | read bytes =>
    obtain ⟨reading, data, size, inside, got, next⟩ := step_read next waiting
    have headSize : PackHead.size = 14 := rfl
    have bad : c.rsize + bytes.length = 1000 ∧ c.socket = true ∧ isWebSocketProtocol (c.received ++ bytes) = false := by
      rw [Meets, Classical.not_imp, Classical.not_imp, Bool.not_eq_true] at fails
      exact fails
    obtain ⟨full, socket, other⟩ := bad
    have sizes := reading.size
    obtain ⟨short, -⟩ | ⟨short, -⟩ | ⟨request, -⟩ | ⟨long, length, -, -, -, rfl⟩ := OnHandShake_cases reading data size inside got next
    · omega
    · omega
    · rw [request] at other
      cases other
    · intro progress
      have phase : (NetConnect.Handshake { c with handshake := long, rsize := c.rsize + bytes.length }
          (c.rsize + bytes.length)).phase = .reading (c.rsize + bytes.length) := by
        simp only [NetConnect.Handshake, socket, if_true]
      have less := progress _ phase
      have less : c.rsize + bytes.length < long.length := less
      omega
  | error message => exact absurd trivial fails
  | close => exact absurd trivial fails

end Steps

theorem waiting_start : Waiting start := by
  intro off phase
  obtain rfl := Phase.reading.inj phase
  exact ⟨rfl, .inl ⟨by decide, by decide⟩, fun enough => absurd enough (by decide)⟩

/-- **Progress.** In a run of reads, however the bytes are cut, every read asks for at least one byte, if and only if no
read fills the 1000 bytes of the buffer with what is not a request. -/
theorem handshake_progress (as : List Action) (c : NetConnect) (run : Runs step Any start as c) :
    (∀ bs d, bs <+: as → Runs step Any start bs d → Progress d) ↔ Runs step Meets start as c :=
  run.always_iff Waiting waiting_start (fun _ waiting => waiting.progress) (fun _ _ _ waiting meets next => waiting.step meets next)
    (fun _ _ _ waiting fails next => waiting.stuck fails next)

/-- A request, in two reads. -/
def requestReads : List Action :=
  [.read (chars "GET / HTTP/1.1"), .read (chars "\r\nHost: a\r\nSec-WebSocket-Key: b\r\n\r\n")]

theorem handshake_progress_request : ∃ c, Runs step Any start requestReads c ∧ c.phase = .frames ∧
    ∀ bs d, bs <+: requestReads → Runs step Any start bs d → Progress d := by
  have ran : ∃ c, Runs step (fun c a => c.rsize + (match a with | .read bytes => bytes.length | _ => 0) ≠ 1000) start requestReads c ∧
      c.phase = .frames := by
    apply Runs.exists_of_decide
    decide +kernel
  obtain ⟨c, run, frames⟩ := ran
  have meets : Runs step Meets start requestReads c := by
    refine run.mono fun c a small => ?_
    cases a with
    | read bytes => exact fun full => absurd full small
    | error message => trivial
    | close => trivial
  exact ⟨c, run.mono fun _ _ _ => trivial, frames, (handshake_progress requestReads c (run.mono fun _ _ _ => trivial)).2 meets⟩

/-- The first 1000 bytes of a request with a long header. -/
def longRequest : List UInt8 := chars "GET / HTTP/1.1" ++ chars "\r\nCookie: " ++ List.replicate 976 97

/-- A longer request is never recognised, and the next read asks for nothing. -/
theorem handshake_stuck : ∃ c, Runs step Any start [.read (longRequest.take 14), .read (longRequest.drop 14)] c ∧
    c.phase = .reading 1000 ∧ ¬ Progress c ∧ step c (.read []) = some c := by
  have checked : (runChecked step (fun _ _ => true) start [.read (longRequest.take 14), .read (longRequest.drop 14)]).any
      (fun c => decide (c.phase = .reading 1000 ∧ c.handshake.length = 1000 ∧ step c (.read []) = some c)) = true := by decide +kernel
  obtain ⟨c, run, holds⟩ := Runs.exists_of_checked Any (fun _ _ _ => trivial) checked
  obtain ⟨phase, length, again⟩ := of_decide_eq_true holds
  refine ⟨c, run, phase, fun progress => ?_, again⟩
  have less := progress 1000 phase
  omega

end GameServer.Net.Opening

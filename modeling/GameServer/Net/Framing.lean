import GameServer.Lib.Run
import GameServer.Net.Pack

/-!
# The socket reader

`ReadHead`, `ReadReadyHead`, `ReadBody` and `ReadReadyBody` form a machine with
one outstanding `async_read`, which completes when all the bytes it asked for
are there. `stream` holds the bytes received and not yet consumed. The reader
follows `datasize`, so a stream of built packs comes back as it was sent exactly
when no body was too long for that field (`framing_roundtrip`).
-/

namespace GameServer.Net.Framing

open GameServer.Lib

/-- The outstanding read. -/
inductive Reading where
  | head
  | body
  deriving DecidableEq, Repr

/-- `NetConnect` as far as reading packs goes, with the bytes still to read. -/
structure NetConnect where
  readBuf : NetPack
  reading : Option Reading
  /-- The packs given to `_OnGetPack`. -/
  packs : List NetPack
  /-- The message given to `_OnBreak`. -/
  broken : Option String
  stream : List UInt8
  deriving DecidableEq, Repr

/-- `NetConnect::ReadHead`. -/
def readHead (c : NetConnect) : NetConnect := { c with reading := some .head }

/-- `NetConnect::ReadBody`: the buffer is resized to the size the head gives. -/
def readBody (c : NetConnect) : NetConnect := { c with reading := some .body }

/-- `NetConnect::ReadReadyHead`, after the read has filled the head. -/
def readReadyHead (c : NetConnect) (data : List UInt8) : NetConnect :=
  let c := { c with readBuf := { c.readBuf with head := PackHead.ofBytes data } }
  if c.readBuf.head.lawful then readBody c
  else { c with reading := none, broken := some "unlawful pack" }

/-- `NetConnect::ReadReadyBody`, after the read has filled the buffer. -/
def readReadyBody (c : NetConnect) (data : List UInt8) : NetConnect :=
  let c := { c with readBuf := { c.readBuf with pBuff := data } }
  readHead { c with packs := c.packs ++ [c.readBuf] }

/-- The bytes the outstanding read asks for. -/
def NetConnect.want (c : NetConnect) : Reading → Nat
  | .head => PackHead.size
  | .body => c.readBuf.getBufferSize

/-- `async_read` completes with exactly the bytes asked for, once they are there. -/
def step (c : NetConnect) : Option NetConnect :=
  match c.reading with
  | none => none
  | some r =>
    if c.stream.length < c.want r then none
    else
      let data := c.stream.take (c.want r)
      let c' := { c with stream := c.stream.drop (c.want r) }
      match r with
      | .head => some (readReadyHead c' data)
      | .body => some (readReadyBody c' data)

/-- A connection waiting for a head, with `packs` delivered and `stream` to come. -/
def waiting (readBuf : NetPack) (packs : List NetPack) (stream : List UInt8) : NetConnect :=
  ⟨readBuf, some .head, packs, none, stream⟩

def start (stream : List UInt8) : NetConnect := waiting NetPack.empty [] stream

/-- Fed `stream`, the reader delivers exactly `ms` and no break. -/
def Delivers (stream : List UInt8) (ms : List Message) : Prop :=
  ∃ c, Settles step (start stream) c ∧ c.packs.map NetPack.message = ms ∧ c.broken = none

/-- The pack the reader makes of a sent message: the body is cut at `datasize`. -/
def Message.received (m : Message) : NetPack := ⟨m.head, m.body.take m.head.datasize.toNat⟩

/-- One built pack at the front of the stream is delivered, cut at its `datasize`. -/
theorem reaches_pack (readBuf : NetPack) (packs : List NetPack) (m : Message) (rest : List UInt8) :
    Reaches step (waiting readBuf packs (m.wire ++ rest))
      (waiting (Message.received m) (packs ++ [Message.received m]) (m.body.drop m.head.datasize.toNat ++ rest)) := by
  have short : m.head.datasize.toNat ≤ m.body.length := by
    rw [Message.datasize_head]; exact Nat.mod_le _ _
  have image : m.wire ++ rest = m.head.bytes ++ (m.body ++ rest) := by
    simp [Message.wire, Message.netPack]
  have front : (m.wire ++ rest).take PackHead.size = m.head.bytes := by
    rw [image, ← m.head.length_bytes, List.take_left]
  have back : (m.wire ++ rest).drop PackHead.size = m.body ++ rest := by
    rw [image, ← m.head.length_bytes, List.drop_left]
  have first : step (waiting readBuf packs (m.wire ++ rest)) =
      some ⟨⟨m.head, readBuf.pBuff⟩, some .body, packs, none, m.body ++ rest⟩ := by
    have enough : ¬ (m.wire ++ rest).length < PackHead.size := by
      rw [image, List.length_append, m.head.length_bytes]; omega
    have head : PackHead.ofBytes m.head.bytes = m.head := by
      simpa using m.head.ofBytes_bytes []
    simp only [step, waiting, NetConnect.want, if_neg enough, front, back, readReadyHead, head,
      Message.lawful_head, if_true, readBody]
  have second : step ⟨⟨m.head, readBuf.pBuff⟩, some .body, packs, none, m.body ++ rest⟩ =
      some (waiting (Message.received m) (packs ++ [Message.received m]) (m.body.drop m.head.datasize.toNat ++ rest)) := by
    have enough : ¬ (m.body ++ rest).length < m.head.datasize.toNat := by
      rw [List.length_append]; omega
    simp only [step, NetConnect.want, NetPack.getBufferSize, if_neg enough, readReadyBody, readHead, waiting,
      Message.received, List.take_append_of_le_length short, List.drop_append_of_le_length short]
  exact .step first (.single second)

/-- Packs are only ever added. -/
theorem step_packs {c d : NetConnect} (next : step c = some d) : c.packs <+: d.packs := by
  unfold step at next
  split at next
  · cases next
  · split at next
    · cases next
    · split at next <;> cases next
      · unfold readReadyHead
        dsimp only
        split <;> exact List.prefix_rfl
      · exact List.prefix_append _ _

theorem reaches_packs {c d : NetConnect} (way : Reaches step c d) : c.packs <+: d.packs :=
  way.invariant (fun d => c.packs <+: d.packs) List.prefix_rfl fun _ _ kept next => kept.trans (step_packs next)

/-- Bodies that fit `datasize` come back whole, one after the other. -/
theorem reaches_all {ms : List Message} (fits : ∀ m ∈ ms, m.body.length < 65536) (readBuf : NetPack)
    (packs : List NetPack) : ∃ readBuf',
      Reaches step (waiting readBuf packs (ms.flatMap Message.wire))
        (waiting readBuf' (packs ++ ms.map Message.received) []) := by
  induction ms generalizing readBuf packs with
  | nil => exact ⟨readBuf, by simpa using Reaches.refl _⟩
  | cons m ms ih =>
    have fit := fits m (by simp)
    have whole : m.body.drop m.head.datasize.toNat = [] := by
      rw [Message.datasize_head, Nat.mod_eq_of_lt fit, List.drop_length]
    have first := reaches_pack readBuf packs m (ms.flatMap Message.wire)
    rw [whole, List.nil_append] at first
    obtain ⟨readBuf', rest⟩ := ih (fun x hx => fits x (by simp [hx])) (Message.received m) (packs ++ [Message.received m])
    refine ⟨readBuf', first.trans ?_⟩
    simpa using rest

theorem message_received {m : Message} (fit : m.body.length < 65536) : (Message.received m).message = m := by
  have whole : m.body.take m.head.datasize.toNat = m.body := by
    rw [Message.datasize_head, Nat.mod_eq_of_lt fit, List.take_length]
  simp only [Message.received, NetPack.message, whole]
  rfl

/-- A reader that is at rest having delivered `ms` after `packs` has cut no body. -/
theorem fits_of_settles {ms : List Message} {readBuf : NetPack} {packs : List NetPack} {c : NetConnect}
    (rest : Settles step (waiting readBuf packs (ms.flatMap Message.wire)) c)
    (same : c.packs.map NetPack.message = packs.map NetPack.message ++ ms) :
    ∀ m ∈ ms, m.body.length < 65536 := by
  induction ms generalizing readBuf packs with
  | nil => simp
  | cons m ms ih =>
    have first := reaches_pack readBuf packs m (ms.flatMap Message.wire)
    have rest' := rest.of_reaches first
    obtain ⟨more, grown⟩ := reaches_packs rest'.1
    have same' := same
    simp only [waiting] at grown
    rw [← grown] at same'
    simp only [List.map_append, List.append_assoc, List.append_cancel_left_eq, List.map_cons,
      List.singleton_append, List.cons.injEq] at same'
    have cut : m.body.take m.head.datasize.toNat = m.body := congrArg Message.body same'.1
    have fit : m.body.length < 65536 := by
      have := congrArg List.length cut
      rw [List.length_take, Message.datasize_head] at this
      omega
    have whole : m.body.drop m.head.datasize.toNat = [] := by
      rw [Message.datasize_head, Nat.mod_eq_of_lt fit, List.drop_length]
    rw [whole, List.nil_append] at rest'
    have tail := ih rest' (by rw [same, List.map_append, List.append_assoc]; simp [message_received fit])
    simpa using ⟨fit, tail⟩

/-- **Framing.** The stream of built packs is delivered as the list that was sent,
without a break, exactly when every body fits the 16-bit `datasize`. -/
theorem framing_roundtrip (ms : List Message) :
    Delivers (ms.flatMap Message.wire) ms ↔ ∀ m ∈ ms, m.body.length < 65536 := by
  constructor
  · rintro ⟨c, rest, same, _⟩
    exact fits_of_settles rest (by simpa using same)
  · intro fits
    obtain ⟨readBuf, way⟩ := reaches_all fits NetPack.empty []
    refine ⟨_, ⟨way, ?_⟩, ?_, rfl⟩
    · simp [step, waiting, NetConnect.want, PackHead.size]
    · simp only [waiting, List.nil_append, List.map_map]
      exact (List.map_congr_left fun m hm => message_received (fits m hm)).trans (List.map_id ms)

/-- A single message too long for `datasize` does not come back. -/
theorem not_delivers_long {m : Message} (long : 65536 ≤ m.body.length) :
    ¬ Delivers ([m].flatMap Message.wire) [m] := by
  rintro ⟨c, rest, same, _⟩
  have fit := fits_of_settles rest same m (List.mem_singleton_self m)
  omega

/-- A body of 65536 bytes goes out with `datasize` 0. -/
theorem framing_cut : ¬ Delivers ([⟨1, 0, List.replicate 65536 0⟩].flatMap Message.wire)
    [⟨1, 0, List.replicate 65536 0⟩] :=
  not_delivers_long (Nat.le_of_eq List.length_replicate.symm)

end GameServer.Net.Framing

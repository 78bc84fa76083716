import GameServer.Lib.Run
import GameServer.Net.Pack

/-!
# The WebSocket reader

xlib's `NetConnect` after the opening handshake: `ReadWebPackHead` and
`ReadWebPackHeadBody` read the frame header and the extended length with
`async_read`, which completes when full, and `ReadWebPackData` reads mask key
and payload with `async_read_some`, which completes with any part of what it
asked for. `complete c n` is the completion of the outstanding read with `n`
bytes; `completeAll` is the completion with all the bytes asked for.

The payload length lives in a union of a 64-bit word and its 16/16/32-bit
parts. The model keeps the union's eight bytes of memory (`lenMem`,
little-endian, `low` first), since every length encoding writes a different
part of them.

`lens`, `consumed` and `frameBytes` are history: the length used for each
frame, the bytes consumed for each frame, and those of the current frame.
-/

namespace GameServer.Net.WebSocket

open GameServer.Lib

/-- `WebSocketHead`; the reserved bits are never looked at. -/
structure WebSocketHead where
  opcode : Nat
  fin : Bool
  payloadlen : Nat
  mask : Bool
  deriving DecidableEq, Repr

/-- The bit fields of the two header bytes. -/
def WebSocketHead.ofBytes (bs : List UInt8) : WebSocketHead where
  opcode := (bs.getD 0 0).toNat % 16
  fin := decide (128 ≤ (bs.getD 0 0).toNat)
  payloadlen := (bs.getD 1 0).toNat % 128
  mask := decide (128 ≤ (bs.getD 1 0).toNat)

/-- `WebSocketProtocol::CLOSE_FRAME`. -/
def CLOSE_FRAME : Nat := 0x08

/-- The outstanding read. -/
inductive Reading where
  | head
  | headBody (readdata : Nat)
  | data
  deriving DecidableEq, Repr

structure NetConnect where
  head : WebSocketHead
  /-- The memory of the union of `datalen` and `high_low`. -/
  lenMem : List UInt8
  /-- The memory of `mask_key`. -/
  maskKey : List UInt8
  data : List UInt8
  totalData : List UInt8
  reading : Option Reading
  /-- The packs given to `_OnGetPack`. -/
  packs : List NetPack
  /-- The message given to `_OnBreak`. -/
  broken : Option String
  /-- `resize` threw: the length does not fit an `int`. -/
  thrown : Bool
  stream : List UInt8
  lens : List Nat
  consumed : List Nat
  frameBytes : Nat
  deriving DecidableEq, Repr

/-- `webpack.datalen`. -/
def NetConnect.datalen (c : NetConnect) : Nat := leVal c.lenMem

/-- `(int)webpack.datalen + (webpack.head.mask == 1 ? 4 : 0)`. -/
def NetConnect.dataSize (c : NetConnect) : Int :=
  toInt32 (toInt32 c.datalen + if c.head.mask then 4 else 0)

/-- `std::string::resize`: the old bytes stay, new ones are zero. -/
def resize (bs : List UInt8) (n : Nat) : List UInt8 := bs.take n ++ List.replicate (n - bs.length) 0

/-- `Helper::apply`: swap first and last byte, then the bytes between. -/
def apply (bs : List UInt8) : List UInt8 := bs.reverse

/-- Write `bs` over the start of `mem`. -/
def overwrite (mem bs : List UInt8) : List UInt8 := bs ++ mem.drop bs.length

/-- `GetNetPackBuffer`: `wait` is result 1, `unlawful` is result 2. -/
inductive GetResult where
  | pack (p : NetPack) (rest : List UInt8)
  | wait
  | unlawful
  deriving DecidableEq, Repr

def getNetPackBuffer (buff : List UInt8) : GetResult :=
  if buff.length < PackHead.size then .wait
  else
    let head := PackHead.ofBytes (buff.take PackHead.size)
    if ¬ head.lawful then .unlawful
    else if buff.length < PackHead.size + head.datasize.toNat then .wait
    else .pack ⟨head, (buff.drop PackHead.size).take head.datasize.toNat⟩
      (buff.drop (PackHead.size + head.datasize.toNat))

/-- What the loop over `GetNetPackBuffer` leaves: the packs, the rest, and whether it met an unlawful head. -/
structure Drained where
  packs : List NetPack
  rest : List UInt8
  unlawful : Bool
  deriving DecidableEq, Repr

/-- The loop over `GetNetPackBuffer`, at most `fuel` packs. -/
def drainLoop : Nat → List UInt8 → Drained
  | 0, buff => ⟨[], buff, false⟩
  | fuel + 1, buff => match getNetPackBuffer buff with
    | .wait => ⟨[], buff, false⟩
    | .unlawful => ⟨[], buff, true⟩
    | .pack p rest =>
      let d := drainLoop fuel rest
      { d with packs := p :: d.packs }

/-- The loop over `GetNetPackBuffer`; every pack takes bytes, so the fuel does not run out
(`drainLoop_eq`). -/
def drain (buff : List UInt8) : Drained := drainLoop buff.length buff

/-- `WebSocketProtocol::decodingDatas`: byte `i` is xored with byte `i % 4` of the key. -/
def decodingDatas (data : List UInt8) (masked : Bool) (key : List UInt8) : List UInt8 :=
  if masked then data.mapIdx fun i b => b ^^^ key.getD (i % 4) 0 else data

/-- `NetConnect::ReadWebPackHead`. -/
def readWebPackHead (c : NetConnect) : NetConnect := { c with reading := some .head, frameBytes := 0 }

/-- `NetConnect::ReadWebPackHeadReady`. -/
def readWebPackHeadReady (c : NetConnect) (bytes : List UInt8) : NetConnect :=
  let c := { c with head := WebSocketHead.ofBytes bytes }
  if c.head.opcode = CLOSE_FRAME then { c with reading := none, broken := some "close frame" }
  else if c.head.payloadlen ≤ 125 then
    { c with lenMem := overwrite c.lenMem (leBytes 2 c.head.payloadlen), reading := some (.headBody 0) }
  else if c.head.payloadlen = 126 then { c with reading := some (.headBody 2) }
  else { c with reading := some (.headBody 8) }

/-- The union after the read into `low`, into `datalen` or nowhere: `Helper::apply`
turns that word round. -/
def applyLen (head : WebSocketHead) (lenMem : List UInt8) : List UInt8 :=
  if head.payloadlen = 126 then overwrite lenMem (apply (lenMem.take 2))
  else if head.payloadlen = 127 then apply lenMem
  else lenMem

/-- `NetConnect::ReadWebPackData`, with the `resize` of its buffer before it. -/
def readWebPackData (c : NetConnect) : NetConnect :=
  if c.dataSize < 0 then { c with reading := none, thrown := true }
  else { c with data := resize c.data c.dataSize.toNat, reading := some .data }

/-- `NetConnect::ReadWebPackHeadBodyReady`. -/
def readWebPackHeadBodyReady (c : NetConnect) (bytes : List UInt8) : NetConnect :=
  let lenMem := applyLen c.head (overwrite c.lenMem bytes)
  readWebPackData { c with lenMem := lenMem, lens := c.lens ++ [leVal lenMem] }

/-- `NetConnect::ReadWebPackDataReady`; how many bytes came in is not looked at. -/
def readWebPackDataReady (c : NetConnect) (bytes : List UInt8) : NetConnect :=
  let data := overwrite c.data bytes
  let maskKey := if c.head.mask then data.take 4 else c.maskKey
  let payload := data.drop (if c.head.mask then 4 else 0)
  let d := drain (c.totalData ++ decodingDatas payload c.head.mask maskKey)
  let c := { c with data := data, maskKey := maskKey, totalData := d.rest, packs := c.packs ++ d.packs,
                    consumed := c.consumed ++ [c.frameBytes] }
  if d.unlawful then { c with reading := none, broken := some "unlawful pack" }
  else readWebPackHead c

/-- The bytes the outstanding read asks for. -/
def NetConnect.want (c : NetConnect) : Reading → Nat
  | .head => 2
  | .headBody readdata => readdata
  | .data => c.dataSize.toNat

/-- The counts a read may complete with: `async_read` all, `async_read_some` any
part but nothing. -/
def Reading.admits (r : Reading) (want n : Nat) : Prop :=
  match r with
  | .data => n ≤ want ∧ (want = 0 ∨ 0 < n)
  | _ => n = want

instance (r : Reading) (want n : Nat) : Decidable (r.admits want n) :=
  match r with
  | .head => inferInstanceAs (Decidable (n = want))
  | .headBody _ => inferInstanceAs (Decidable (n = want))
  | .data => inferInstanceAs (Decidable (n ≤ want ∧ (want = 0 ∨ 0 < n)))

/-- The handler of the outstanding read. -/
def ready (c : NetConnect) (r : Reading) (bytes : List UInt8) : NetConnect :=
  match r with
  | .head => readWebPackHeadReady c bytes
  | .headBody _ => readWebPackHeadBodyReady c bytes
  | .data => readWebPackDataReady c bytes

/-- The outstanding read completes with `n` bytes of the stream. -/
def complete (c : NetConnect) (n : Nat) : Option NetConnect :=
  match c.reading with
  | none => none
  | some r =>
    if r.admits (c.want r) n ∧ n ≤ c.stream.length then
      some (ready { c with stream := c.stream.drop n, frameBytes := c.frameBytes + n } r (c.stream.take n))
    else none

/-- The bytes the outstanding read asks for, if there is one. -/
def NetConnect.asked (c : NetConnect) : Nat := (c.reading.map c.want).getD 0

/-- The outstanding read completes with all the bytes it asked for. -/
def completeAll (c : NetConnect) : Option NetConnect := complete c c.asked

/-- A connection that has just issued its first `ReadWebPackHead`; `WebSocketPack()`
zeroes `datalen`. -/
def start (stream : List UInt8) : NetConnect where
  head := ⟨0, false, 0, false⟩
  lenMem := List.replicate 8 0
  maskKey := List.replicate 4 0
  data := []
  totalData := []
  reading := some .head
  packs := []
  broken := none
  thrown := false
  stream := stream
  lens := []
  consumed := []
  frameBytes := 0

/-! ## The loop over the packs -/

theorem length_of_pack {buff rest : List UInt8} {p : NetPack} (pack : getNetPackBuffer buff = .pack p rest) :
    rest.length < buff.length := by
  simp only [getNetPackBuffer] at pack
  split_ifs at pack with short
  obtain ⟨-, rfl⟩ := GetResult.pack.inj pack
  unfold PackHead.size at short ⊢
  simp only [List.length_drop]
  omega

theorem drainLoop_eq (fuel : Nat) (buff : List UInt8) (enough : buff.length ≤ fuel) :
    drainLoop fuel buff = drain buff := by
  induction fuel using Nat.strongRecOn generalizing buff with
  | _ fuel ih =>
    unfold drain
    cases fuel with
    | zero => rw [Nat.le_zero.1 enough]
    | succ fuel =>
      cases size : buff.length with
      | zero =>
        obtain rfl := List.length_eq_zero_iff.1 size
        simp [drainLoop, getNetPackBuffer, PackHead.size]
      | succ n =>
        simp only [drainLoop]
        split
        · rfl
        · rfl
        · next p rest pack =>
          have less := length_of_pack pack
          rw [ih fuel (by omega) rest (by omega), ih n (by omega) rest (by omega)]

theorem drain_of_wait {buff : List UInt8} (wait : getNetPackBuffer buff = .wait) : drain buff = ⟨[], buff, false⟩ := by
  rw [← drainLoop_eq (buff.length + 1) buff (by omega), drainLoop, wait]

theorem drain_of_unlawful {buff : List UInt8} (unlawful : getNetPackBuffer buff = .unlawful) :
    drain buff = ⟨[], buff, true⟩ := by
  rw [← drainLoop_eq (buff.length + 1) buff (by omega), drainLoop, unlawful]

theorem drain_of_pack {buff rest : List UInt8} {p : NetPack} (pack : getNetPackBuffer buff = .pack p rest) :
    drain buff = { drain rest with packs := p :: (drain rest).packs } := by
  have less := length_of_pack pack
  rw [← drainLoop_eq (buff.length + 1) buff (by omega), drainLoop, pack]
  simp only [drainLoop_eq buff.length rest (by omega)]

/-- What a loop without a break leaves is waiting for more bytes. -/
theorem wait_of_drain (buff : List UInt8) (lawful : (drain buff).unlawful = false) :
    getNetPackBuffer (drain buff).rest = .wait := by
  induction size : buff.length using Nat.strongRecOn generalizing buff with
  | _ n ih =>
    cases result : getNetPackBuffer buff with
    | wait => rw [drain_of_wait result]; exact result
    | unlawful => rw [drain_of_unlawful result] at lawful; cases lawful
    | pack p rest =>
      have less := length_of_pack result
      rw [drain_of_pack result] at lawful ⊢
      exact ih rest.length (by omega) rest lawful rfl

/-- A buffer that starts with a lawful head. -/
theorem getNetPackBuffer_head (h : PackHead) (lawful : h.lawful = true) (body : List UInt8) :
    getNetPackBuffer (h.bytes ++ body) =
      if body.length < h.datasize.toNat then .wait
      else .pack ⟨h, body.take h.datasize.toNat⟩ (body.drop h.datasize.toNat) := by
  have head : PackHead.ofBytes ((h.bytes ++ body).take PackHead.size) = h := by
    rw [List.take_left' h.length_bytes]
    simpa using h.ofBytes_bytes []
  have drop : (h.bytes ++ body).drop (PackHead.size + h.datasize.toNat) = body.drop h.datasize.toNat := by
    rw [← List.drop_drop, List.drop_left' h.length_bytes]
  simp only [getNetPackBuffer, head, lawful, drop, List.drop_left' h.length_bytes, List.length_append, h.length_bytes]
  have whole : ¬ PackHead.size + body.length < PackHead.size := by omega
  simp [whole]

end GameServer.Net.WebSocket

import GameServer.Net.WebReads

/-!
# Frames on the wire

A `Frame` carries its payload length in one of three encodings; `makeFrame`
picks the shortest. `read_frame` follows the reader over one frame when every
read is whole: which length it uses depends on what earlier frames left in the
upper six bytes of the union (`Encoding.mem`), and apart from that it appends
the payload to `totalData` and takes the complete packs off its front.
-/

namespace GameServer.Net.WebSocket

open GameServer.Lib

/-- How a frame carries its payload length. -/
inductive Encoding where
  | short
  | medium
  | long
  deriving DecidableEq, Repr

/-- The lengths an encoding can carry; no payload has `2 ^ 31` bytes. -/
def Encoding.fits : Encoding → Nat → Prop
  | .short, n => n ≤ 125
  | .medium, n => n < 65536
  | .long, n => n < 2 ^ 31

instance : (enc : Encoding) → (n : Nat) → Decidable (enc.fits n)
  | .short, n => inferInstanceAs (Decidable (n ≤ 125))
  | .medium, n => inferInstanceAs (Decidable (n < 65536))
  | .long, n => inferInstanceAs (Decidable (n < 2 ^ 31))

/-- The seven-bit field. -/
def Encoding.code : Encoding → Nat → Nat
  | .short, n => n
  | .medium, _ => 126
  | .long, _ => 127

/-- The extended length, most significant byte first. -/
def Encoding.ext : Encoding → Nat → List UInt8
  | .short, _ => []
  | .medium, n => (leBytes 2 n).reverse
  | .long, n => (leBytes 8 n).reverse

structure Frame where
  fin : Bool
  rsv : Nat
  opcode : Nat
  key : Option (List UInt8)
  enc : Encoding
  payload : List UInt8
  rsv_lt : rsv < 8
  opcode_lt : opcode < 16
  key_length : ∀ k, key = some k → k.length = 4
  fits : enc.fits payload.length

namespace Frame

def length (f : Frame) : Nat := f.payload.length

def head (f : Frame) : WebSocketHead := ⟨f.opcode, f.fin, f.enc.code f.length, f.key.isSome⟩

/-- Mask key and masked payload, or the plain payload. -/
def body (f : Frame) : List UInt8 :=
  match f.key with
  | none => f.payload
  | some k => k ++ decodingDatas f.payload true k

/-- The two header bytes. -/
def headBytes (f : Frame) : List UInt8 :=
  [UInt8.ofNat ((if f.fin then 128 else 0) + f.rsv * 16 + f.opcode),
    UInt8.ofNat ((if f.key.isSome then 128 else 0) + f.enc.code f.length)]

def wire (f : Frame) : List UInt8 := f.headBytes ++ (f.enc.ext f.length ++ f.body)

theorem fits_long (f : Frame) : f.length < 2 ^ 31 := by
  have fits := f.fits
  unfold length
  cases enc : f.enc <;> simp only [enc, Encoding.fits] at fits <;> omega

theorem code_lt (f : Frame) : f.enc.code f.length < 128 := by
  have fits := f.fits
  unfold length
  cases enc : f.enc <;> simp only [enc, Encoding.fits, Encoding.code] at fits ⊢ <;> omega

theorem head_ofBytes (f : Frame) : WebSocketHead.ofBytes f.headBytes = f.head := by
  have rsv := f.rsv_lt
  have opcode := f.opcode_lt
  have code := f.code_lt
  simp only [WebSocketHead.ofBytes, headBytes, head, List.getD_cons_zero, List.getD_cons_succ, UInt8.toNat_ofNat',
    WebSocketHead.mk.injEq]
  refine ⟨?_, ?_, ?_, ?_⟩
  · cases f.fin <;> simp <;> omega
  · cases f.fin <;> simp <;> omega
  · cases f.key.isSome <;> simp <;> omega
  · cases f.key.isSome <;> simp <;> omega

end Frame

/-- `WebSocketProtocol::makeFrame`: the frame type, the shortest length encoding, the bytes. -/
def makeFrame (buff : List UInt8) (frame : UInt8) : List UInt8 :=
  let size := buff.length
  if size ≤ 125 then [frame] ++ [UInt8.ofNat size] ++ buff
  else if size ≤ 65535 then [frame] ++ [126, UInt8.ofNat (size >>> 8 &&& 0xff), UInt8.ofNat (size &&& 0xff)] ++ buff
  else [frame] ++ [127] ++ apply (leBytes 8 size) ++ buff

/-- The encoding `makeFrame` picks. -/
def Encoding.shortest (n : Nat) : Encoding := if n ≤ 125 then .short else if n ≤ 65535 then .medium else .long

theorem Encoding.shortest_fits {n : Nat} (small : n < 2 ^ 31) : (Encoding.shortest n).fits n := by
  unfold Encoding.shortest
  split_ifs with short medium
  · exact short
  · exact Nat.lt_succ_of_le medium
  · exact small

/-- The frame that `makeFrame` writes. -/
def Frame.made (buff : List UInt8) (frame : UInt8) (small : buff.length < 2 ^ 31) : Frame where
  fin := decide (128 ≤ frame.toNat)
  rsv := frame.toNat / 16 % 8
  opcode := frame.toNat % 16
  key := none
  enc := Encoding.shortest buff.length
  payload := buff
  rsv_lt := Nat.mod_lt _ (by decide)
  opcode_lt := Nat.mod_lt _ (by decide)
  key_length := by simp
  fits := Encoding.shortest_fits small

theorem Frame.wire_made (buff : List UInt8) (frame : UInt8) (small : buff.length < 2 ^ 31) :
    (Frame.made buff frame small).wire = makeFrame buff frame := by
  have byte : UInt8.ofNat ((if 128 ≤ frame.toNat then 128 else 0) + frame.toNat / 16 % 8 * 16 + frame.toNat % 16) =
      frame := by
    have lt := frame.toNat_lt
    apply UInt8.toNat_inj.1
    rw [UInt8.toNat_ofNat']
    split_ifs <;> omega
  simp only [Frame.wire, Frame.headBytes, Frame.body, Frame.made, Frame.length, makeFrame, Encoding.shortest,
    decide_eq_true_eq, byte, Option.isSome_none, Bool.false_eq_true, if_false, Nat.zero_add]
  split_ifs with short medium
  · simp [Encoding.code, Encoding.ext]
  · have low : UInt8.ofNat (buff.length &&& 0xff) = UInt8.ofNat buff.length := by
      apply UInt8.toNat_inj.1
      simp [Nat.and_two_pow_sub_one_eq_mod _ 8]
    have high : UInt8.ofNat (buff.length >>> 8 &&& 0xff) = UInt8.ofNat (buff.length / 256) := by
      apply UInt8.toNat_inj.1
      simp [Nat.shiftRight_eq_div_pow, Nat.and_two_pow_sub_one_eq_mod _ 8]
    simp [Encoding.code, Encoding.ext, leBytes, low, high]
  · simp [Encoding.code, Encoding.ext, apply]

/-- An unmasked binary frame. -/
def Frame.binary (enc : Encoding) (payload : List UInt8) (fits : enc.fits payload.length) : Frame where
  fin := true
  rsv := 0
  opcode := 2
  key := none
  enc := enc
  payload := payload
  rsv_lt := by decide
  opcode_lt := by decide
  key_length := by simp
  fits := fits

/-! ## Reading one frame -/

/-- The union once the length has been read over `mem`. -/
def Encoding.mem : Encoding → Nat → List UInt8 → List UInt8
  | .long, n, _ => leBytes 8 n
  | _, n, mem => leBytes 2 n ++ mem.drop 2

/-- What a frame finds in the upper six bytes of the union. -/
def NetConnect.high (c : NetConnect) : Nat := leVal (c.lenMem.drop 2)

/-- A short or medium length is read on top of the upper six bytes. -/
theorem Frame.leVal_mem (f : Frame) (mem : List UInt8) : leVal (f.enc.mem f.length mem) =
    f.length + if f.enc = .long then 0 else 65536 * leVal (mem.drop 2) := by
  have fits := f.fits
  unfold Frame.length
  cases enc : f.enc <;> simp only [enc, Encoding.fits, Encoding.mem] at fits ⊢
  case long =>
    rw [leVal_leBytes, if_true]
    omega
  all_goals
    rw [leVal_append, leVal_leBytes, length_leBytes]
    simp only [reduceCtorEq, if_false]
    omega

/-- The reader waits for a header at the start of `stream`. -/
structure AtFrame (c : NetConnect) (stream : List UInt8) : Prop where
  reading : c.reading = some .head
  lenMem : c.lenMem.length = 8
  stream : c.stream = stream

theorem completeAll_eq {c : NetConnect} {r : Reading} {bytes rest : List UInt8} (reading : c.reading = some r)
    (stream : c.stream = bytes ++ rest) (want : c.want r = bytes.length) :
    completeAll c = some (ready { c with stream := rest, frameBytes := c.frameBytes + bytes.length } r bytes) := by
  have admits : r.admits bytes.length bytes.length := by
    cases r with
    | head => rfl
    | headBody readdata => rfl
    | data => exact ⟨Nat.le_refl _, by omega⟩
  simp [completeAll, complete, NetConnect.asked, reading, want, stream, admits]

/-- `c` once the length of `f` is known. -/
def NetConnect.gotLength (c : NetConnect) (f : Frame) (rest : List UInt8) : NetConnect :=
  { c with
    head := f.head
    lenMem := f.enc.mem f.length c.lenMem
    lens := c.lens ++ [leVal (f.enc.mem f.length c.lenMem)]
    reading := some (.headBody (f.enc.ext f.length).length)
    stream := f.body ++ rest
    frameBytes := c.frameBytes + 2 + (f.enc.ext f.length).length }

/-- The union between the header and the extended length. -/
def Encoding.headMem : Encoding → Nat → List UInt8 → List UInt8
  | .short, n, mem => overwrite mem (leBytes 2 n)
  | _, _, mem => mem

theorem readWebPackHeadReady_frame (c : NetConnect) (f : Frame) (live : f.opcode ≠ CLOSE_FRAME) :
    readWebPackHeadReady c f.headBytes = { c with
      head := f.head
      lenMem := f.enc.headMem f.length c.lenMem
      reading := some (.headBody (f.enc.ext f.length).length) } := by
  have opcode : f.head.opcode ≠ CLOSE_FRAME := live
  simp only [readWebPackHeadReady, f.head_ofBytes, if_neg opcode]
  obtain ⟨fin, rsv, opcode, key, enc, payload, _, _, _, fits⟩ := f
  cases enc with
  | short =>
    have code : payload.length ≤ 125 := fits
    simp [Frame.head, Frame.length, Encoding.code, Encoding.headMem, Encoding.ext, code]
  | medium => simp [Frame.head, Encoding.code, Encoding.headMem, Encoding.ext]
  | long => simp [Frame.head, Encoding.code, Encoding.headMem, Encoding.ext]

theorem Frame.applyLen_ext (f : Frame) {mem : List UInt8} (size : mem.length = 8) :
    applyLen f.head (overwrite (f.enc.headMem f.length mem) (f.enc.ext f.length)) = f.enc.mem f.length mem := by
  obtain ⟨fin, rsv, opcode, key, enc, payload, _, _, _, fits⟩ := f
  cases enc with
  | short =>
    have code : payload.length ≤ 125 := fits
    have medium : payload.length ≠ 126 := by omega
    have long : payload.length ≠ 127 := by omega
    simp [applyLen, Frame.head, Frame.length, Encoding.code, Encoding.headMem, Encoding.ext, Encoding.mem, overwrite,
      medium, long]
  | medium => simp [applyLen, Frame.head, Encoding.code, Encoding.headMem, Encoding.ext, Encoding.mem, overwrite, apply]
  | long =>
    simp [applyLen, Frame.head, Encoding.code, Encoding.headMem, Encoding.ext, Encoding.mem, overwrite, apply, size]

/-- The reader takes header and extended length and goes on with the length the union holds. -/
theorem read_length {c : NetConnect} {f : Frame} {rest : List UInt8} (at' : AtFrame c (f.wire ++ rest))
    (live : f.opcode ≠ CLOSE_FRAME) : Reaches completeAll c (readWebPackData (c.gotLength f rest)) := by
  have stream : c.stream = f.headBytes ++ (f.enc.ext f.length ++ (f.body ++ rest)) := by
    rw [at'.stream]
    simp [Frame.wire]
  have header := completeAll_eq at'.reading stream rfl
  rw [ready, readWebPackHeadReady_frame _ f live] at header
  refine .step header (.single ?_)
  rw [completeAll_eq (r := .headBody (f.enc.ext f.length).length) rfl rfl rfl]
  simp only [ready, readWebPackHeadBodyReady, f.applyLen_ext at'.lenMem]
  rfl

theorem Frame.length_body (f : Frame) : f.body.length = f.length + if f.key.isSome then 4 else 0 := by
  have four := f.key_length
  unfold Frame.body
  cases key : f.key with
  | none => rfl
  | some k => simp [decodingDatas, four k key, Frame.length, Nat.add_comm]

/-- Masking twice with one key gives the payload back. -/
theorem decodingDatas_decodingDatas (payload key : List UInt8) :
    decodingDatas (decodingDatas payload true key) true key = payload := by
  apply List.ext_getElem
  · simp [decodingDatas]
  · intro i _ _
    have back : ∀ x k : UInt8, x ^^^ k ^^^ k = x := fun x k => by rw [UInt8.xor_assoc, UInt8.xor_self, UInt8.xor_zero]
    simp [decodingDatas, back]

/-- The union gives the length of `f`. -/
def Right (c : NetConnect) (f : Frame) : Prop := leVal (f.enc.mem f.length c.lenMem) = f.length

/-- The length comes out right exactly when it is in the 64-bit encoding or the upper bytes are zero. -/
theorem right_iff (c : NetConnect) (f : Frame) : Right c f ↔ f.enc = .long ∨ c.high = 0 := by
  unfold Right NetConnect.high
  rw [f.leVal_mem]
  split_ifs with long
  · simp [long]
  · simp only [long, false_or]
    omega

theorem want_data (c : NetConnect) : c.want .data = c.dataSize.toNat := rfl

theorem dataSize_buffer (c : NetConnect) (data : List UInt8) (reading : Option Reading) :
    NetConnect.dataSize { c with data := data, reading := reading } = c.dataSize := rfl

theorem dataSize_gotLength {c : NetConnect} {f : Frame} (rest : List UInt8) (right : Right c f) :
    (c.gotLength f rest).dataSize = if f.body.length < 2 ^ 31 then (f.body.length : Int) else f.body.length - 2 ^ 32 := by
  have small := f.fits_long
  have size := f.length_body
  have len : (c.gotLength f rest).datalen = f.length := right
  have mask : (c.gotLength f rest).head.mask = f.key.isSome := rfl
  rw [NetConnect.dataSize, len, mask, size]
  unfold toInt32
  cases f.key.isSome <;> simp only [Int.bmod, Bool.false_eq_true, if_true, if_false] <;> split_ifs <;> omega

/-- `resize` throws on a frame with `2 ^ 31` bytes or more of key and payload. -/
theorem read_oversize {c : NetConnect} {f : Frame} {rest : List UInt8} (at' : AtFrame c (f.wire ++ rest))
    (live : f.opcode ≠ CLOSE_FRAME) (right : Right c f) (big : 2 ^ 31 ≤ f.body.length) :
    Settles completeAll c { c.gotLength f rest with reading := none, thrown := true } := by
  have way := read_length at' live
  have small := f.fits_long
  have size := f.length_body
  have short : f.body.length < 2 ^ 32 := by split_ifs at size <;> omega
  have negative : (c.gotLength f rest).dataSize < 0 := by
    rw [dataSize_gotLength rest right, if_neg (by omega)]
    omega
  rw [readWebPackData, if_pos negative] at way
  exact ⟨way, rfl⟩

/-- The mask key read from a frame's body. -/
theorem Frame.maskKey_body (f : Frame) (old : List UInt8) :
    (if f.key.isSome then f.body.take 4 else old) = f.key.getD old := by
  have four := f.key_length
  unfold Frame.body
  cases key : f.key with
  | none => simp
  | some k => simp [← four k key]

/-- The payload read from a frame's body. -/
theorem Frame.decodingDatas_body (f : Frame) (old : List UInt8) :
    decodingDatas (f.body.drop (if f.key.isSome then 4 else 0)) f.key.isSome (f.key.getD old) = f.payload := by
  have four := f.key_length
  unfold Frame.body
  cases key : f.key with
  | none => simp [decodingDatas]
  | some k => simp [← four k key, decodingDatas_decodingDatas]

/-- `ReadWebPackDataReady` on a full buffer: the payload goes to `totalData` and the packs
are taken off its front. -/
theorem readWebPackDataReady_body {c : NetConnect} {f : Frame} (head : c.head = f.head)
    (full : c.data.length = f.body.length) : readWebPackDataReady c f.body =
      let d := drain (c.totalData ++ f.payload)
      let c := { c with
        data := f.body
        maskKey := f.key.getD c.maskKey
        totalData := d.rest
        packs := c.packs ++ d.packs
        consumed := c.consumed ++ [c.frameBytes] }
      if d.unlawful then { c with reading := none, broken := some "unlawful pack" } else readWebPackHead c := by
  have data : overwrite c.data f.body = f.body := by simp [overwrite, ← full]
  have mask : c.head.mask = f.key.isSome := by rw [head]; rfl
  simp only [readWebPackDataReady, data, mask, f.maskKey_body, f.decodingDatas_body]

/-- `c` after a whole frame. -/
def NetConnect.afterFrame (c : NetConnect) (f : Frame) (rest : List UInt8) : NetConnect :=
  readWebPackDataReady { c.gotLength f rest with
    data := resize c.data f.body.length
    reading := some .data
    stream := rest
    frameBytes := (c.gotLength f rest).frameBytes + f.body.length } f.body

/-- **One frame.** With whole reads and the right length the reader consumes exactly the frame. -/
theorem read_frame {c : NetConnect} {f : Frame} {rest : List UInt8} (at' : AtFrame c (f.wire ++ rest))
    (live : f.opcode ≠ CLOSE_FRAME) (right : Right c f) (small : f.body.length < 2 ^ 31) :
    Reaches completeAll c (c.afterFrame f rest) := by
  have way := read_length at' live
  have size : (c.gotLength f rest).dataSize = f.body.length := by
    rw [dataSize_gotLength rest right, if_pos small]
  rw [readWebPackData, if_neg (by omega), size, Int.toNat_natCast] at way
  refine way.trans (.single ?_)
  have want : NetConnect.want { c.gotLength f rest with
      data := resize (c.gotLength f rest).data f.body.length
      reading := some .data } .data = f.body.length := by
    rw [want_data, dataSize_buffer, size, Int.toNat_natCast]
  rw [completeAll_eq rfl rfl want]
  rfl

section AfterFrame

variable (c : NetConnect) (f : Frame) (rest : List UInt8)

theorem afterFrame_eq : c.afterFrame f rest =
    let d := drain (c.totalData ++ f.payload)
    let c := { c.gotLength f rest with
      data := f.body
      reading := some .data
      stream := rest
      frameBytes := (c.gotLength f rest).frameBytes + f.body.length
      maskKey := f.key.getD c.maskKey
      totalData := d.rest
      packs := c.packs ++ d.packs
      consumed := c.consumed ++ [(c.gotLength f rest).frameBytes + f.body.length] }
    if d.unlawful then { c with reading := none, broken := some "unlawful pack" } else readWebPackHead c := by
  unfold NetConnect.afterFrame
  rw [readWebPackDataReady_body]
  · rfl
  · rfl
  · simp [resize]
    omega

theorem lens_afterFrame : (c.afterFrame f rest).lens = c.lens ++ [leVal (f.enc.mem f.length c.lenMem)] := by
  rw [afterFrame_eq]
  dsimp only
  split_ifs <;> rfl

theorem packs_afterFrame : (c.afterFrame f rest).packs = c.packs ++ (drain (c.totalData ++ f.payload)).packs := by
  rw [afterFrame_eq]
  dsimp only
  split_ifs <;> rfl

theorem totalData_afterFrame : (c.afterFrame f rest).totalData = (drain (c.totalData ++ f.payload)).rest := by
  rw [afterFrame_eq]
  dsimp only
  split_ifs <;> rfl

theorem lenMem_afterFrame : (c.afterFrame f rest).lenMem = f.enc.mem f.length c.lenMem := by
  rw [afterFrame_eq]
  dsimp only
  split_ifs <;> rfl

variable {c f}

theorem afterFrame_stops (bad : (drain (c.totalData ++ f.payload)).unlawful = true) :
    (c.afterFrame f rest).reading = none ∧ (c.afterFrame f rest).broken = some "unlawful pack" := by
  rw [afterFrame_eq]
  dsimp only
  rw [if_pos bad]
  exact ⟨rfl, rfl⟩

theorem Encoding.length_mem (enc : Encoding) (n : Nat) {mem : List UInt8} (size : mem.length = 8) :
    (enc.mem n mem).length = 8 := by
  cases enc <;> simp [Encoding.mem, size]

theorem afterFrame_goes_on (size : c.lenMem.length = 8) (good : (drain (c.totalData ++ f.payload)).unlawful = false) :
    AtFrame (c.afterFrame f rest) rest := by
  have mem := f.enc.length_mem f.length size
  rw [← lenMem_afterFrame c f rest] at mem
  rw [afterFrame_eq] at mem ⊢
  dsimp only at mem ⊢
  rw [if_neg (by simp [good])] at mem ⊢
  exact ⟨rfl, mem, rfl⟩

/-- What `f` leaves in the upper six bytes of the union. -/
def Frame.leaves (f : Frame) (high : Nat) : Nat := if f.enc = .long then f.length / 65536 else high

theorem high_afterFrame : (c.afterFrame f rest).high = f.leaves c.high := by
  have small := f.fits_long
  unfold NetConnect.high Frame.leaves
  rw [lenMem_afterFrame]
  cases enc : f.enc with
  | short => simp [Encoding.mem, leBytes]
  | medium => simp [Encoding.mem, leBytes]
  | long =>
    simp only [Encoding.mem, if_true]
    have drop : (leBytes 8 f.length).drop 2 = leBytes 6 (f.length / 256 / 256) := rfl
    rw [drop, leVal_leBytes]
    omega

end AfterFrame

/-- A close frame ends the reading. -/
theorem read_close {c : NetConnect} {f : Frame} {rest : List UInt8} (at' : AtFrame c (f.wire ++ rest))
    (close : f.opcode = CLOSE_FRAME) :
    ∃ d, Settles completeAll c d ∧ d.lens = c.lens ∧ d.packs = c.packs ∧ d.broken = some "close frame" := by
  have stream : c.stream = f.headBytes ++ (f.enc.ext f.length ++ (f.body ++ rest)) := by
    rw [at'.stream]
    simp [Frame.wire]
  have opcode : f.head.opcode = CLOSE_FRAME := close
  have header := completeAll_eq at'.reading stream rfl
  simp only [ready, readWebPackHeadReady, f.head_ofBytes, if_pos opcode] at header
  exact ⟨_, ⟨.single header, rfl⟩, rfl, rfl, rfl⟩

theorem completeAll_of_stopped {c : NetConnect} (stopped : c.reading = none) : completeAll c = none := by
  simp [completeAll, complete, stopped]

/-- The bytes of a sequence of frames. -/
def wires (fs : List Frame) : List UInt8 := fs.flatMap Frame.wire

theorem AtFrame.settled {c : NetConnect} (at' : AtFrame c []) : completeAll c = none := by
  simp [completeAll, complete, NetConnect.asked, at'.reading, at'.stream, NetConnect.want]

theorem atFrame_start (stream : List UInt8) : AtFrame (start stream) stream := ⟨rfl, rfl, rfl⟩

/-- The reader goes on after `f`: it is no close frame, its buffer can be made, and no
unlawful head turns up. -/
def Frame.Passes (f : Frame) (total : List UInt8) : Prop :=
  f.opcode ≠ CLOSE_FRAME ∧ f.body.length < 2 ^ 31 ∧ (drain (total ++ f.payload)).unlawful = false

/-- No frame that the reader gets to is in a shorter encoding while the latest 64-bit
length, as it is in `high`, has left something above the lower two bytes. -/
def Fresh : Nat → List UInt8 → List Frame → Prop
  | _, _, [] => True
  | high, total, f :: fs => f.opcode = CLOSE_FRAME ∨
      (f.enc = .long ∨ high = 0) ∧ (f.Passes total → Fresh (f.leaves high) (drain (total ++ f.payload)).rest fs)

end GameServer.Net.WebSocket

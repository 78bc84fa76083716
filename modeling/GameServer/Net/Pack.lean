import GameServer.Lib.Bytes

/-!
# Packs on the wire

xlib's `NetPack`: a packed 14-byte `PackHead` (`long` is 32 bits, memory is
little-endian) followed by the body. The constructor cuts the length to the
16-bit `datasize` and appends the whole body; everything that reads a pack
trusts `datasize`.
-/

namespace GameServer.Net

open GameServer.Lib

/-- `tagPackHead`. -/
structure PackHead where
  begflag : UInt8
  version : BitVec 16
  messageid : BitVec 32
  roleid : BitVec 32
  datasize : BitVec 16
  endflag : UInt8
  deriving DecidableEq, Repr

def PackHead.PACK_VER : BitVec 16 := 1
def PackHead.PACK_HFLAG : UInt8 := 0x5A
def PackHead.PACK_EFLAG : UInt8 := 0xA5

/-- `sizeof(PackHead)` under `#pragma pack(1)`. -/
def PackHead.size : Nat := 14

/-- `tagPackHead()`: all bytes zero. -/
def PackHead.zero : PackHead := ⟨0, 0, 0, 0, 0, 0⟩

/-- The memory image of a head. -/
def PackHead.bytes (h : PackHead) : List UInt8 :=
  [h.begflag] ++ (leBytes 2 h.version.toNat ++ (leBytes 4 h.messageid.toNat ++
    (leBytes 4 h.roleid.toNat ++ (leBytes 2 h.datasize.toNat ++ [h.endflag]))))

/-- The head stored in the first 14 bytes. -/
def PackHead.ofBytes (bs : List UInt8) : PackHead where
  begflag := bs.getD 0 0
  version := BitVec.ofNat 16 (leVal ((bs.drop 1).take 2))
  messageid := BitVec.ofNat 32 (leVal ((bs.drop 3).take 4))
  roleid := BitVec.ofNat 32 (leVal ((bs.drop 7).take 4))
  datasize := BitVec.ofNat 16 (leVal ((bs.drop 11).take 2))
  endflag := bs.getD 13 0

/-- The test every reader makes: both flags are in place. -/
def PackHead.lawful (h : PackHead) : Bool :=
  h.begflag == PackHead.PACK_HFLAG && h.endflag == PackHead.PACK_EFLAG

@[simp] theorem PackHead.length_bytes (h : PackHead) : h.bytes.length = PackHead.size := by
  simp [PackHead.bytes, PackHead.size]

theorem ofNat_leVal_leBytes {w : Nat} (n : Nat) (v : BitVec w) (fits : 2 ^ w = 256 ^ n) :
    BitVec.ofNat w (leVal (leBytes n v.toNat)) = v := by
  rw [leVal_leBytes, ← fits, Nat.mod_eq_of_lt v.isLt]
  exact BitVec.eq_of_toNat_eq (by simp)

/-- A head is read back from its image, whatever follows it. -/
theorem PackHead.ofBytes_bytes (h : PackHead) (rest : List UInt8) :
    PackHead.ofBytes (h.bytes ++ rest) = h := by
  have split : h.bytes ++ rest = h.begflag :: (leBytes 2 h.version.toNat ++ (leBytes 4 h.messageid.toNat ++
      (leBytes 4 h.roleid.toNat ++ (leBytes 2 h.datasize.toNat ++ (h.endflag :: rest))))) := by
    simp [PackHead.bytes]
  rw [split]
  simp only [PackHead.ofBytes, leBytes, List.cons_append, List.nil_append, List.drop_succ_cons, List.drop_zero,
    List.take_succ_cons, List.take_zero, List.getD_cons_zero, List.getD_cons_succ]
  have version := ofNat_leVal_leBytes 2 h.version (by decide)
  have messageid := ofNat_leVal_leBytes 4 h.messageid (by decide)
  have roleid := ofNat_leVal_leBytes 4 h.roleid (by decide)
  have datasize := ofNat_leVal_leBytes 2 h.datasize (by decide)
  simp only [leBytes] at version messageid roleid datasize
  rw [version, messageid, roleid, datasize]

/-- `NetPack`: the head and the string `m_pBuff`, which holds head and body in a
pack that was built and the body alone in one that was read. -/
structure NetPack where
  head : PackHead
  pBuff : List UInt8
  deriving DecidableEq, Repr

/-- `NetPack()`. -/
def NetPack.empty : NetPack := ⟨PackHead.zero, []⟩

def NetPack.getBufferSize (p : NetPack) : Nat := p.head.datasize.toNat

/-- What a handler sees of a pack that was read. -/
structure Message where
  messageid : BitVec 32
  roleid : BitVec 32
  body : List UInt8
  deriving DecidableEq, Repr

def NetPack.message (p : NetPack) : Message := ⟨p.head.messageid, p.head.roleid, p.pBuff⟩

/-- The head `NetPack(messageid, pdata, len, roleid, type)` fills in. -/
def Message.head (m : Message) : PackHead where
  begflag := PackHead.PACK_HFLAG
  version := PackHead.PACK_VER
  messageid := m.messageid
  roleid := m.roleid
  datasize := BitVec.ofNat 16 m.body.length
  endflag := PackHead.PACK_EFLAG

/-- `NetPack(messageid, pdata, len, roleid, type)`; `type` is not used. -/
def Message.netPack (m : Message) : NetPack := ⟨m.head, m.head.bytes ++ m.body⟩

/-- The bytes `NetConnect::Send` writes for `m`. -/
def Message.wire (m : Message) : List UInt8 := m.netPack.pBuff

@[simp] theorem Message.lawful_head (m : Message) : m.head.lawful = true := rfl

theorem Message.datasize_head (m : Message) : m.head.datasize.toNat = m.body.length % 65536 := by
  simp [Message.head]

end GameServer.Net

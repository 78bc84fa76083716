import GameServer.Lib.Bytes
import GameServer.Lua.VarInt

/-!
# Archives of Lua values

`lua_archiver` writes values of the Lua stack to a buffer and reads them back. A string that was written before is written as its index
among the first 255, and a table as its pairs in the order of `lua_next`, so tables that contain themselves are too deep. The numbers of
Lua are a parameter, and so is LZ4. What the reader makes of a table is new, so it is given by the pairs that were set in it (`Tree`).
-/

namespace GameServer.Lua

/-- `lua_Number`, its conversions and its eight bytes in memory. -/
structure Numbers where
  Number : Type
  /-- `lua_number2integer` -/
  tointeger : Number → Int64
  /-- `cast_num` -/
  ofinteger : Int64 → Number
  isnan : Number → Bool
  bytes : Number → List UInt8
  ofBytes : List UInt8 → Number
  length_bytes : ∀ n, (bytes n).length = 8
  ofBytes_bytes : ∀ n, ofBytes (bytes n) = n
  isnan_ofinteger : ∀ i, isnan (ofinteger i) = false

/-- A value on the stack or in a table; tables are references. -/
inductive Value (N : Numbers) where
  | nil
  | number (n : N.Number)
  | boolean (b : Bool)
  | string (s : List UInt8)
  | table (t : Nat)
  /-- functions, userdata and threads -/
  | other

/-- What may be a key of a table. -/
def Value.Legal {N : Numbers} : Value N → Prop
  | .nil => False
  | .number n => N.isnan n = false
  | _ => True

/-- The tables: the pairs that `lua_next` goes through. -/
structure Heap (N : Numbers) where
  pairs : Nat → List (Value N × Value N)
  legal : ∀ t, ∀ p ∈ pairs t, p.1.Legal

/-- A value that was loaded. A table is the pairs of the calls of `lua_settable`. -/
inductive Tree (N : Numbers) where
  | nil
  | number (n : N.Number)
  | boolean (b : Bool)
  | string (s : List UInt8)
  | table (entries : List (Tree N × Tree N))

/-- `lua_settable` raises an error for other keys. -/
def Tree.legal {N : Numbers} : Tree N → Bool
  | .nil => false
  | .number n => !N.isnan n
  | _ => true

inductive ArType where
  | nill
  | number
  | integer
  | string
  | string_idx
  | bool_true
  | bool_false
  | table_head
  | table_tail
  deriving DecidableEq

namespace ArType

def all : List ArType := [nill, number, integer, string, string_idx, bool_true, bool_false, table_head, table_tail]

def count : Nat := 9

def code (t : ArType) : UInt8 := UInt8.ofNat (all.idxOf t)

/-- The codes from `count` on are small integers. -/
def ofCode (c : UInt8) : Option ArType := all[c.toNat]?

end ArType

def small_int_max : Nat := 255 - ArType.count
def max_share_string : Nat := 255
def max_table_depth : Nat := 16
def LUAI_MAXCSTACK : Nat := 8000

/-- Whether there is room for `size` more values above so many. -/
def lua_checkstack (top size : Nat) : Bool := top + size ≤ LUAI_MAXCSTACK

/-- Why there is no result: the function returned `false`, went beyond a buffer, or Lua raised an error. -/
inductive Failure where
  | returned
  | overrun
  | raised
  deriving DecidableEq

section Saving

variable {N : Numbers}

/-- The bytes from `m_begin` to `m_pos`, and the strings among them. Lua has each string once, so the pointers are the strings. -/
structure Saver where
  written : List UInt8
  m_shared_string : List (List UInt8)

namespace Saver

variable (m_buffer_size : Nat) (s : Saver)

/-- `m_end - m_pos`. -/
def room : Nat := m_buffer_size - s.written.length

def push (bytes : List UInt8) : Except Failure Saver :=
  if s.room m_buffer_size < bytes.length then .error .returned else .ok { s with written := s.written ++ bytes }

/-- A number that `encode_u64` or `encode_s64` wrote, or failed to. -/
def pushVar (encoded : Option (List UInt8)) : Except Failure Saver :=
  match encoded with
  | none => .error .returned
  | some bytes => .ok { s with written := s.written ++ bytes }

def save_nill : Except Failure Saver := s.push m_buffer_size [ArType.nill.code]

def save_bool (v : Bool) : Except Failure Saver :=
  s.push m_buffer_size [(if v then ArType.bool_true else .bool_false).code]

def save_number (v : N.Number) : Except Failure Saver := s.push m_buffer_size (ArType.number.code :: N.bytes v)

def save_integer (v : Int64) : Except Failure Saver :=
  if 0 ≤ v.toInt ∧ v.toInt ≤ small_int_max then s.push m_buffer_size [UInt8.ofNat (v.toInt.toNat + ArType.count)]
  else do
    let v := if v.toInt > small_int_max then v - Int64.ofNat small_int_max else v
    let s ← s.push m_buffer_size [ArType.integer.code]
    s.pushVar (encode_s64 (s.room m_buffer_size) v)

def save_string (str : List UInt8) : Except Failure Saver :=
  match s.m_shared_string.idxOf? str with
  | some shared => do
    let s ← s.push m_buffer_size [ArType.string_idx.code]
    s.pushVar (encode_u64 (s.room m_buffer_size) shared)
  | none => do
    let s ← s.push m_buffer_size [ArType.string.code]
    let s ← s.pushVar (encode_u64 (s.room m_buffer_size) str.length)
    if (s.room m_buffer_size : Int) < Lib.toInt32 str.length then .error .returned
    else if s.room m_buffer_size < str.length then .error .overrun
    else .ok ⟨s.written ++ str,
      if s.m_shared_string.length < max_share_string then s.m_shared_string ++ [str] else s.m_shared_string⟩

/-- A table, where `save` saves a key and a value. -/
def save_table (save : Saver → Value N → Except Failure Saver) (top : Nat) (pairs : List (Value N × Value N)) :
    Except Failure Saver := do
  let s ← s.push m_buffer_size [ArType.table_head.code]
  if !lua_checkstack top 1 then .error .returned
  else
    let s ← pairs.foldlM (fun s p => do
      let s ← save s p.1
      save s p.2) s
    s.push m_buffer_size [ArType.table_tail.code]

end Saver

/-- A value, with so many values on the stack and so much left of `max_table_depth`. -/
def save_value (m_buffer_size : Nat) (h : Heap N) : Nat → Nat → Saver → Value N → Except Failure Saver
  | _, _, s, .nil => s.save_nill m_buffer_size
  | _, _, s, .number n =>
    if N.tointeger n ≠ 0 then s.save_integer m_buffer_size (N.tointeger n) else s.save_number m_buffer_size n
  | _, _, s, .boolean b => s.save_bool m_buffer_size b
  | _, _, s, .string str => s.save_string m_buffer_size str
  | 0, _, _, .table _ => .error .returned
  | left + 1, top, s, .table t => s.save_table m_buffer_size (save_value m_buffer_size h left (top + 2)) top (h.pairs t)
  | _, _, _, .other => .error .returned

end Saving

section Loading

variable {N : Numbers}

/-- The bytes from `m_pos` to `m_end`, and the strings that were read. -/
structure Loader where
  data : List UInt8
  m_shared_string : List (List UInt8)

/-- `load_value` of everything but a table. -/
def load_atom (type : ArType) (l : Loader) : Except Failure (Tree N × Loader) :=
  match type with
  | .nill => .ok (.nil, l)
  | .number =>
    if l.data.length < 8 then .error .returned
    else .ok (.number (N.ofBytes (l.data.take 8)), { l with data := l.data.drop 8 })
  | .integer =>
    match decode_s64 l.data with
    | none => .error .returned
    | some (integer, data) =>
      .ok (.number (N.ofinteger (if 0 ≤ integer.toInt then integer + Int64.ofNat small_int_max else integer)), { l with data := data })
  | .bool_true => .ok (.boolean true, l)
  | .bool_false => .ok (.boolean false, l)
  | .string =>
    match decode_u64 l.data with
    | none => .error .returned
    | some (str_len, data) =>
      -- a length from 2^63 on is negative as a `ptrdiff_t`
      if (data.length : Int) < (str_len : Int).bmod (2 ^ 64) then .error .returned
      else if data.length < str_len then .error .overrun
      else .ok (.string (data.take str_len), ⟨data.drop str_len, l.m_shared_string ++ [data.take str_len]⟩)
  | .string_idx =>
    match decode_u64 l.data with
    | none => .error .returned
    | some (str_idx, data) =>
      match l.m_shared_string[str_idx]? with
      | none => .error .returned
      | some str => .ok (.string str, { l with data := data })
  | .table_head | .table_tail => .error .returned

mutual

/-- A value, with so many values on the stack. -/
def load_value : Nat → Nat → Loader → Except Failure (Tree N × Loader)
  | 0, _, _ => .error .returned
  | fuel + 1, top, l =>
    if !lua_checkstack top 1 then .error .returned
    else
      match l.data with
      | [] => .error .returned
      | code :: data =>
        match ArType.ofCode code with
        | none => .ok (.number (N.ofinteger (Int64.ofNat (code.toNat - ArType.count))), { l with data := data })
        | some .table_head => do
          let (entries, l) ← load_entries fuel (top + 1) { l with data := data }
          .ok (.table entries, l)
        | some type => load_atom type { l with data := data }

/-- The loop of `load_value` over the pairs of a table that is at the top of the stack. -/
def load_entries : Nat → Nat → Loader → Except Failure (List (Tree N × Tree N) × Loader)
  | 0, _, _ => .error .returned
  | fuel + 1, top, l =>
    match l.data with
    | [] => .error .returned
    | code :: data =>
      if code = ArType.table_tail.code then .ok ([], { l with data := data })
      else do
        let (key, l) ← load_value fuel top l
        let (value, l) ← load_value fuel (top + 1) l
        if !key.legal then .error .raised
        else
          let (entries, l) ← load_entries fuel top l
          .ok ((key, value) :: entries, l)

end

/-- The loop of `load`. -/
def loadLoop : Nat → Nat → Loader → Except Failure (List (Tree N))
  | 0, _, _ => .error .returned
  | fuel + 1, top, l =>
    match l.data with
    | [] => .ok []
    | _ => do
      let (value, l) ← load_value fuel top l
      let values ← loadLoop fuel (top + 1) l
      .ok (value :: values)

end Loading

/-- What the archiver uses of LZ4: from so many bytes of the source to a destination that has so much room. There is no result where
the length is not positive. -/
structure Lz4 where
  compress_default : List UInt8 → Int → Int → Option (List UInt8)
  decompress_safe : List UInt8 → Int → Int → Option (List UInt8)

def LZ4_COMPRESSBOUND (isize : Nat) : Nat := if isize % 2 ^ 32 > 0x7E000000 then 0 else isize + isize / 255 + 16

structure lua_archiver where
  m_buffer_size : Nat
  m_lz_threshold : Nat
  word : m_buffer_size < 2 ^ 64 := by decide

namespace lua_archiver

variable {N : Numbers} (a : lua_archiver) (z : Lz4)

/-- `save`, with so many values on the stack; an archive begins with `x`, or with `z` where it is packed. `memory` is `m_ar_buffer`
before and what stands behind it. -/
def save (memory : List UInt8) (h : Heap N) (top : Nat) (values : List (Value N)) : Except Failure (List UInt8) :=
  if values = [] then .error .returned
  else if a.m_buffer_size = 0 then .error .overrun
  else do
    let s ← values.foldlM (save_value a.m_buffer_size h max_table_depth top) ⟨[0x78], []⟩
    let data_len := s.written.length
    if data_len ≥ a.m_lz_threshold ∧ a.m_buffer_size < 1 + LZ4_COMPRESSBOUND data_len then
      -- from behind the `x` on it takes as many bytes as there are with it
      match z.compress_default ((s.written ++ memory.drop data_len).drop 1) (Lib.toInt32 data_len) (Lib.toInt32 a.m_buffer_size - 1) with
      | none => .error .returned
      | some packed => .ok (0x7A :: packed)
    else .ok s.written

/-- `load`: the values that are pushed. -/
def load (top : Nat) (data : List UInt8) : Except Failure (List (Tree N)) :=
  match data with
  | [] => .error .returned
  | c :: data =>
    if c = 0x7A then
      match z.decompress_safe data (Lib.toInt32 (data.length + 1) - 1) (Lib.toInt32 a.m_buffer_size) with
      | none => .error .returned
      | some data => loadLoop (data.length + 1) top ⟨data, []⟩
    else if c = 0x78 then loadLoop (data.length + 1) top ⟨data, []⟩
    else .error .returned

end lua_archiver

end GameServer.Lua

import GameServer.Lib.Bytes
import GameServer.Lib.Decimal
import GameServer.Lib.Run
import GameServer.Lib.Search

/-!
# The HTTP client's connection

`http::connect` over a plain socket (over TLS `off` is not initialised): every handler of a read appends the bytes that came to
`_data`, and either issues the next read or calls `_callback`. A state has the reads that are
outstanding and the bytes of the response that are still to come; a step completes the first read
with some of these. A read of length zero completes with nothing.

`bytes_transferred` bytes are never more than were asked for, and a handler gets no error.
-/

namespace GameServer.Http

open GameServer.Lib

def CR : UInt8 := 13
def LF : UInt8 := 10
def CRLF : List UInt8 := [CR, LF]

/-- `split_has_empty`. -/
def splitHasEmpty (spl s : List UInt8) : List (List UInt8) := if s = [] then [] else pieces spl s

/-- `split`. -/
def split (spl s : List UInt8) : List (List UInt8) := (splitHasEmpty spl s).filter (· ≠ [])

/-- `atoi`. -/
def atoi (s : List UInt8) : Int := readInt (-2 ^ 31) (2 ^ 31 - 1) s

/-- The value of a hex digit. -/
def hexDigit (c : UInt8) : Option Nat :=
  if 48 ≤ c ∧ c ≤ 57 then some (c.toNat - 48)
  else if 97 ≤ c ∧ c ≤ 102 then some (c.toNat - 97 + 10)
  else if 65 ≤ c ∧ c ≤ 70 then some (c.toNat - 65 + 10)
  else none

/-- The loop of `Helper::hextoint32`; it stops at a character that is no digit, after the shift. -/
def hexLoop : Int → List UInt8 → Int
  | num, [] => num
  | num, c :: cs =>
    match hexDigit c with
    | some digit => hexLoop (toInt32 (num * 16 + digit)) cs
    | none => toInt32 (num * 16)

/-- What `Helper::hextoint32` leaves in its result, which it does not write for more than eight
characters. -/
def hextoint32 (s : List UInt8) : Option Int := if 8 < s.length then none else some (hexLoop 0 s)

/-- `resize`. -/
def resize (n : Nat) (data : List UInt8) : List UInt8 := data.take n ++ List.replicate (n - data.length) 0

/-- At least six bytes. -/
def padded (data : List UInt8) : List UInt8 := if data.length < 6 then resize 6 data else data

/-- The bytes are put into `_data` from this place on. -/
def store (data : List UInt8) (place : Nat) (bytes : List UInt8) : List UInt8 :=
  data.take place ++ bytes ++ data.drop (place + bytes.length)

structure HttpResponse where
  code : Int
  /-- The latest entry of a name comes first. -/
  head : List (List UInt8 × List UInt8)
  body : List UInt8
  deriving DecidableEq, Repr

inductive Handler where
  | on_read_head
  | on_read_body_has_length
  | on_read_body_no_length_head
  | on_read_body_no_length_body
  deriving DecidableEq, Repr

/-- An `async_read_some` into `_data` from this place on. -/
structure Read where
  handler : Handler
  place : Nat
  size : Nat
  deriving DecidableEq, Repr

structure Connect where
  _data : List UInt8
  off : Nat
  head_off : Nat
  head_ready : Bool
  bclose : Bool
  _response : HttpResponse
  /-- The reads that are outstanding. -/
  reads : List Read
  /-- The sizes of all reads that were issued. -/
  issued : List Nat
  /-- The body of the response at each call of `_callback`. -/
  callbacks : List (List UInt8)
  /-- A handler has thrown, or used a variable that was not written. -/
  failed : Bool
  deriving DecidableEq, Repr

namespace Connect

variable (c : Connect)

def asyncRead (handler : Handler) (place : Nat) : Connect :=
  { c with
    reads := c.reads ++ [⟨handler, place, c._data.length - place⟩]
    issued := c.issued ++ [c._data.length - place] }

def callback : Connect := { c with callbacks := c.callbacks ++ [c._response.body] }

def close : Connect := { c with bclose := true }

/-- A line of the head; one without a colon is no field. -/
def addHead (head : List (List UInt8 × List UInt8)) (line : List UInt8) : List (List UInt8 × List UInt8) :=
  match findSub [58] line with
  | none => head
  | some pos => (line.take pos, line.drop (pos + 1)) :: head

/-- `is_receive_head`. -/
def isReceiveHead : Bool × Connect :=
  let res := c._data.take c.off
  match findSub (CRLF ++ CRLF) res with
  | none => (false, c)
  | some pos =>
    let c := { c with head_off := pos + 4 }
    match split CRLF (res.take pos) with
    | [] => (false, c)
    | first :: lines =>
      match split [32] first with
      | _ :: code :: _ :: _ =>
        if c.head_ready then (true, c)
        else
          (true, { c with
            head_ready := true
            _response := ⟨atoi code, lines.foldl addHead [], []⟩
            _data := padded (c._data.drop c.head_off) })
      | _ => (false, c)

/-- "Content-Length" and "Content - Length". -/
def contentLength : List UInt8 := [67, 111, 110, 116, 101, 110, 116, 45, 76, 101, 110, 103, 116, 104]
def contentLengthBlank : List UInt8 := [67, 111, 110, 116, 101, 110, 116, 32, 45, 32, 76, 101, 110, 103, 116, 104]

/-- `get_length`. -/
def getLength : Int :=
  match c._response.head.lookup contentLength with
  | some value => atoi value
  | none =>
    match c._response.head.lookup contentLengthBlank with
    | some value => atoi value
    | none => -1

/-- The loop of `on_read_head` over the pieces of a body without a length. -/
def piecesLoop : List (List UInt8) → Connect → Connect
  | [], c => c
  | [line], c =>
    if 4 < line.length then c.close.callback
    else if hexLoop 0 line = 0 then c.callback
    else
      { c with _data := store (resize 6 c._data) 0 line, off := line.length }.asyncRead .on_read_body_no_length_head line.length
  | line :: content :: rest, c =>
    if 4 < line.length then c.close.callback
    else if hexLoop 0 line = 0 then c.callback
    else if hexLoop 0 line ≤ content.length then
      piecesLoop rest { c with _response := { c._response with body := c._response.body ++ content } }
    else
      -- The loop goes on with the next pieces after it has issued the read.
      let siz := (hexLoop 0 line).toNat
      let off := line.length + 2 + content.length
      let data := store (resize (line.length + 2 + siz + 2) c._data) 0 (line ++ CRLF ++ content)
      piecesLoop rest ({ c with _data := data, off := off }.asyncRead .on_read_body_no_length_body off)

def onReadHead : Connect :=
  match c.isReceiveHead with
  | (false, c) => c.asyncRead .on_read_head c.off
  | (true, c) =>
    let length := c.getLength
    if length ≠ -1 then
      -- Neither a string nor a vector of negative length can be made.
      if length < 0 then { c with failed := true }
      else if (c.head_off + length) % 2 ^ 32 ≤ c.off then
        { c with _response := { c._response with body := c._data.take length.toNat } }.callback
      else
        let off := c.off - c.head_off
        { c with _data := resize length.toNat c._data, off := off }.asyncRead .on_read_body_has_length off
    else
      let temp := c._data.take (c.off - c.head_off)
      match findSub CRLF temp with
      | none => { c with off := temp.length }.asyncRead .on_read_body_no_length_head temp.length
      | some _ => c.piecesLoop (splitHasEmpty CRLF temp)

def onReadBodyHasLength : Connect :=
  if c.off < c._data.length then c.asyncRead .on_read_head c.off
  else { c with _response := { c._response with body := c._data.take c.off } }.callback

def onReadBodyNoLengthHead : Connect :=
  let str := c._data.take c.off
  match findSub CRLF str with
  | none => c.asyncRead .on_read_body_no_length_head c.off
  | some pos =>
    match hextoint32 (str.take pos) with
    | none => { c with failed := true }
    | some siz =>
      if siz = 0 then c.callback
      else if (c._data.length : Int) < pos + 2 + siz then
        { c with _data := resize (pos + 2 + siz + 2).toNat c._data }.asyncRead .on_read_body_no_length_body c.off
      else c.asyncRead .on_read_body_no_length_body c.off

def onReadBodyNoLengthBody : Connect :=
  if c.off < c._data.length then c.asyncRead .on_read_body_no_length_body c.off
  else
    let str := c._data.take c.off
    match findSub CRLF str with
    | none => c.asyncRead .on_read_body_no_length_head c.off
    | some pos =>
      -- `str.size() - pos - 4` is not signed.
      let content := if str.length < pos + 4 then str.drop (pos + 2) else (str.drop (pos + 2)).take (str.length - pos - 4)
      { c with _response := { c._response with body := c._response.body ++ content }, off := 0,
               _data := resize 6 c._data }.asyncRead .on_read_body_no_length_head 0

/-- The handler of a read that has put `bytes_transferred` bytes into `_data`. -/
def handle : Handler → Connect
  | .on_read_head => c.onReadHead
  | .on_read_body_has_length => c.onReadBodyHasLength
  | .on_read_body_no_length_head => c.onReadBodyNoLengthHead
  | .on_read_body_no_length_body => c.onReadBodyNoLengthBody

/-- The constructor, and `off` as `on_connect` sets it. -/
def start : Connect := ⟨List.replicate 1000 0, 0, 0, false, false, ⟨0, [], []⟩, [], [], [], false⟩

/-- `on_connect`, with the first read. -/
def init : Connect := start.asyncRead .on_read_head 0

end Connect

/-- The connection and the bytes of the response that are still to come. -/
structure Transport where
  connect : Connect
  rest : List UInt8
  deriving DecidableEq, Repr

def Transport.init (response : List UInt8) : Transport := ⟨.init, response⟩

/-- The first outstanding read completes with `n` bytes: at least one, unless it asked for none. -/
def step (s : Transport) (n : Nat) : Option Transport :=
  match s.connect.reads with
  | [] => none
  | read :: reads =>
    if n ≤ read.size ∧ n ≤ s.rest.length ∧ (n = 0 → read.size = 0) then
      let c := { s.connect with
        _data := store s.connect._data read.place (s.rest.take n)
        off := s.connect.off + n
        reads := reads }
      some ⟨c.handle read.handler, s.rest.drop n⟩
    else none

end GameServer.Http

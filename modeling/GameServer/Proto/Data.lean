import GameServer.Lib.Bytes
import GameServer.Lib.Decimal

/-!
# Messages that are described by a table

`proto_data` is a message as a list of fields, with the values as text; `_proto_data_mgr` has the
messages of every name without values. The serialiser has a stream path and an array path, with the sizes of
nested messages from a third function, and the parser fills the fields of a message from the table.

The primitives of the protobuf library are parameters (`Protobuf`). The recursions are bounded by `fuel`;
`none` is a call that does not return, or that goes through a null pointer or past the end of a vector.
-/

namespace GameServer.Proto

open GameServer.Lib

inductive WireType where
  | varint
  | fixed64
  | length_delimited
  | start_group
  | end_group
  | fixed32
  deriving DecidableEq, Repr

def WireType.code : WireType → Nat
  | .varint => 0
  | .fixed64 => 1
  | .length_delimited => 2
  | .start_group => 3
  | .end_group => 4
  | .fixed32 => 5

/-- The texts in `type`; no function knows the other ones. -/
inductive FieldType where
  | int32
  | int64
  | string
  | bool
  | proto
  | int32_s
  | int64_s
  | string_s
  | bool_s
  | proto_s
  | other
  deriving DecidableEq, Repr

structure Data where
  index : Int
  type : FieldType
  value : List UInt8
  value_s : List (List UInt8)
  proto_type : String
  proto_value : Option (List Data)
  proto_value_s : List (List Data)

structure CodedInputStream where
  /-- The bytes up to the current limit. -/
  rest : List UInt8
  /-- The bytes behind it. -/
  later : List UInt8
  legitimate_message_end_ : Bool
  recursion_depth_ : Nat

namespace CodedInputStream

variable (input : CodedInputStream)

/-- `PushLimit`; a limit is how many bytes are behind it. -/
def pushLimit (length : Nat) : Nat × CodedInputStream :=
  (input.later.length, { input with rest := input.rest.take length, later := input.rest.drop length ++ input.later })

/-- `PopLimit`. -/
def popLimit (limit : Nat) : CodedInputStream :=
  let all := input.rest ++ input.later
  { input with rest := all.take (all.length - limit), later := all.drop (all.length - limit), legitimate_message_end_ := false }

end CodedInputStream

/-- The memory of an output stream, which has unwritten bytes too, and the place of the next write. -/
structure CodedOutputStream where
  memory : Nat → UInt8
  pos : Nat

namespace CodedOutputStream

variable (output : CodedOutputStream)

/-- The bytes are put at the current place. -/
def put (bytes : List UInt8) : CodedOutputStream :=
  { output with memory := fun i => if output.pos ≤ i then (bytes[i - output.pos]?).getD (output.memory i) else output.memory i }

def advance (size : Nat) : CodedOutputStream := { output with pos := output.pos + size }

def write (bytes : List UInt8) : CodedOutputStream := (output.put bytes).advance bytes.length

/-- What was written. -/
def bytes : List UInt8 := (List.range output.pos).map output.memory

end CodedOutputStream

/-- The primitives of the library: what they write is read back. -/
structure Protobuf where
  /-- `WriteVarint32` and `WriteVarint64`. -/
  varint : Nat → List UInt8
  /-- `ReadVarint64`: the number, if there is one, and the rest. -/
  readVarint : List UInt8 → Option Nat × List UInt8
  /-- `WireFormatLite::ReadString`: whether there is a string, what was read of it, and the rest. -/
  readString : List UInt8 → Bool × List UInt8 × List UInt8
  /-- `WireFormat::SkipField`. -/
  skipField : Nat → CodedInputStream → Bool × CodedInputStream
  recursionLimit : Nat
  /-- Whether `GetDirectBufferForNBytesAndAdvance` gives so many bytes at this place. -/
  direct : Nat → Nat → Bool
  readVarint_varint : ∀ n tail, n < 2 ^ 64 → readVarint (varint n ++ tail) = (some n, tail)
  readString_varint : ∀ s tail, s.length < 2 ^ 31 → readString (varint s.length ++ (s ++ tail)) = (true, s, tail)

/-- `Helper::StringToInt32`. -/
def stringToInt32 (str : List UInt8) : Int := readInt (-2 ^ 31) (2 ^ 31 - 1) str

/-- `Helper::StringToInt64`. -/
def stringToInt64 (str : List UInt8) : Int := readInt (-2 ^ 63) (2 ^ 63 - 1) str

def toInt64 (n : Int) : Int := n.bmod (2 ^ 64)

def makeTag (field_number : Int) (type : WireType) : Nat := ((field_number * 8 + type.code) % 2 ^ 32).toNat

def getTagFieldNumber (tag : Nat) : Int := (tag / 8 : Nat)

def getTagWireType (tag : Nat) : Nat := tag % 8

section Model

variable (pb : Protobuf) (_proto_data_mgr : String → Option (List Data))

/-- What `WriteInt32` and `WriteInt64` write. -/
def writeInt (field_number value : Int) : List UInt8 :=
  pb.varint (makeTag field_number .varint) ++ pb.varint (value % 2 ^ 64).toNat

def writeString (field_number : Int) (value : List UInt8) : List UInt8 :=
  pb.varint (makeTag field_number .length_delimited) ++ (pb.varint (value.length % 2 ^ 32) ++ value)

/-- `Int32Size` and `Int64Size`. -/
def intSize (value : Int) : Nat := (pb.varint (value % 2 ^ 64).toNat).length

def stringSize (value : List UInt8) : Nat := (pb.varint (value.length % 2 ^ 32)).length + value.length

/-- `mutable_proto_data`: a message from the table, if there is none yet. -/
def mutableProtoData (temp : Data) : Option (List Data) := temp.proto_value <|> _proto_data_mgr temp.proto_type

/-- What one field adds to the size. -/
def dataSize (nested : List Data → Option Nat) (off : Nat) (temp : Data) : Option Nat :=
  match temp.type with
  | .int32 => some (off + intSize pb (stringToInt32 temp.value))
  | .string => some (off + stringSize pb temp.value)
  | .int64 => some (off + intSize pb (stringToInt64 temp.value))
  | .bool => some (off + 1)
  | .int32_s => some (off * temp.value_s.length + (temp.value_s.map fun value => intSize pb (stringToInt32 value)).sum)
  | .string_s => some (off * temp.value_s.length + (temp.value_s.map (stringSize pb)).sum)
  -- Every element counts as `value`.
  | .int64_s => some (off * temp.value_s.length + temp.value_s.length * intSize pb (stringToInt64 temp.value))
  | .bool_s => some (off * temp.value_s.length + temp.value_s.length)
  | .proto => (mutableProtoData _proto_data_mgr temp).bind fun message => (nested message).map (1 + ·)
  | .proto_s =>
    match temp.proto_value_s with
    | [] => some 0
    -- The loop does not count.
    | _ :: _ => none
  | .other => some 0

def getProtoSize : Nat → List Data → Option Nat
  | 0, _ => none
  | fuel + 1, message =>
    message.zipIdx.foldlM
      (fun total_size (temp, i) => (dataSize pb _proto_data_mgr (getProtoSize fuel) (i / 16 + 1) temp).map (total_size + ·)) 0

/-- What the array path writes for one field. -/
def dataToArray (nested : List Data → Option (List UInt8)) (temp : Data) : Option (List UInt8) :=
  match temp.type with
  | .int32 => some (writeInt pb temp.index (stringToInt32 temp.value))
  | .int64 => some (writeInt pb temp.index (stringToInt64 temp.value))
  | .string => some (writeString pb temp.index temp.value)
  -- Nested messages have no tag and no length here.
  | .proto => (mutableProtoData _proto_data_mgr temp).bind nested
  | .int32_s => some (temp.value_s.flatMap fun value => writeInt pb temp.index (stringToInt32 value))
  | .int64_s => some (temp.value_s.flatMap fun value => writeInt pb temp.index (stringToInt32 value))
  | .string_s => some (temp.value_s.flatMap (writeString pb temp.index))
  | .proto_s => (temp.proto_value_s.mapM nested).map List.flatten
  | .bool | .bool_s | .other => some []

def serializeWithCachedSizesToArray : Nat → List Data → Option (List UInt8)
  | 0, _ => none
  | fuel + 1, message =>
    (message.mapM (dataToArray pb _proto_data_mgr (serializeWithCachedSizesToArray fuel))).map List.flatten

/-- `WriteMessageMaybeToArray`, with the functions it calls. -/
def writeMessageMaybeToArray (size : List Data → Option Nat) (toArray : List Data → Option (List UInt8))
    (toStream : List Data → CodedOutputStream → Option CodedOutputStream) (index : Int) (message : List Data)
    (output : CodedOutputStream) : Option CodedOutputStream :=
  (size message).bind fun size =>
    let output := (output.write (pb.varint (makeTag index .length_delimited))).write (pb.varint (size % 2 ^ 32))
    if pb.direct output.pos size then (toArray message).map fun bytes => (output.put bytes).advance size
    else toStream message output

/-- What the stream path does with one field. -/
def writeData (writeMessage : Int → List Data → CodedOutputStream → Option CodedOutputStream) (output : CodedOutputStream)
    (temp : Data) : Option CodedOutputStream :=
  match temp.type with
  | .int32 => some (output.write (writeInt pb temp.index (stringToInt32 temp.value)))
  | .int64 => some (output.write (writeInt pb temp.index (stringToInt64 temp.value)))
  | .string => some (output.write (writeString pb temp.index temp.value))
  | .proto => (mutableProtoData _proto_data_mgr temp).bind fun message => writeMessage temp.index message output
  | .int32_s => some (output.write (temp.value_s.flatMap fun value => writeInt pb temp.index (stringToInt32 value)))
  | .int64_s => some (output.write (temp.value_s.flatMap fun value => writeInt pb temp.index (stringToInt32 value)))
  | .string_s => some (output.write (temp.value_s.flatMap (writeString pb temp.index)))
  -- The loop runs over the places of `value_s`.
  | .proto_s =>
    (List.range temp.value_s.length).foldlM
      (fun output zed => (temp.proto_value_s[zed]?).bind fun message => writeMessage temp.index message output) output
  | .bool | .bool_s | .other => some output

def serializeWithCachedSizes : Nat → List Data → CodedOutputStream → Option CodedOutputStream
  | 0, _, _ => none
  | fuel + 1, message, output =>
    message.foldlM
      (writeData pb _proto_data_mgr
        (writeMessageMaybeToArray pb (getProtoSize pb _proto_data_mgr fuel) (serializeWithCachedSizesToArray pb _proto_data_mgr fuel)
          (serializeWithCachedSizes fuel))) output

/-- `ReadTag`, which is zero at the end. -/
def readTag (input : CodedInputStream) : Nat × CodedInputStream :=
  if input.rest = [] then (0, { input with legitimate_message_end_ := true })
  else
    match pb.readVarint input.rest with
    | (some tag, rest) => (tag % 2 ^ 32, { input with rest := rest })
    | (none, rest) => (0, { input with rest := rest })

/-- Whether the loop over the tags goes on, or the function returns. -/
inductive Outcome where
  | next
  | return (result : Bool)
  deriving DecidableEq, Repr

/-- From the label `handle_uninterpreted` on. -/
def uninterpreted (tag : Nat) (input : CodedInputStream) (temp : Data) : Outcome × CodedInputStream × Data :=
  if getTagWireType tag = WireType.end_group.code then (.return true, input, temp)
  else
    match pb.skipField tag input with
    | (true, input) => (.next, input, temp)
    | (false, input) => (.return false, input, temp)

/-- A number of the field's type, as a text that goes into the field. -/
def readNumber (text : Nat → List UInt8) (assign : List UInt8 → Data) (tag : Nat) (input : CodedInputStream) (temp : Data) :
    Outcome × CodedInputStream × Data :=
  if getTagWireType tag = WireType.varint.code then
    match pb.readVarint input.rest with
    | (some n, rest) => (.next, { input with rest := rest }, assign (text n))
    | (none, rest) => (.return false, { input with rest := rest }, temp)
  else uninterpreted pb tag input temp

def int32Text (n : Nat) : List UInt8 := intText (toInt32 n)
def int64Text (n : Nat) : List UInt8 := intText (toInt64 n)
def boolText (n : Nat) : List UInt8 := if n ≠ 0 then [49] else [48]

/-- What the parser does with a field that has the tag's number. -/
def readField (merge : CodedInputStream → List Data → Option (Bool × CodedInputStream × List Data)) (tag : Nat)
    (input : CodedInputStream) (temp : Data) : Option (Outcome × CodedInputStream × Data) :=
  match temp.type with
  | .int32 => some (readNumber pb int32Text (fun text => { temp with value := text }) tag input temp)
  | .int64 => some (readNumber pb int64Text (fun text => { temp with value := text }) tag input temp)
  | .bool => some (readNumber pb boolText (fun text => { temp with value := text }) tag input temp)
  | .int32_s => some (readNumber pb int32Text (fun text => { temp with value_s := temp.value_s ++ [text] }) tag input temp)
  | .int64_s => some (readNumber pb int64Text (fun text => { temp with value_s := temp.value_s ++ [text] }) tag input temp)
  | .bool_s => some (readNumber pb boolText (fun text => { temp with value_s := temp.value_s ++ [text] }) tag input temp)
  | .string =>
    if getTagWireType tag = WireType.length_delimited.code then
      match pb.readString input.rest with
      | (true, value, rest) => some (.next, { input with rest := rest }, { temp with value := value })
      | (false, value, rest) => some (.return false, { input with rest := rest }, { temp with value := value })
    else some (uninterpreted pb tag input temp)
  | .string_s =>
    if getTagWireType tag = WireType.length_delimited.code then
      match pb.readString input.rest with
      | (true, value, rest) => some (.next, { input with rest := rest }, { temp with value_s := temp.value_s ++ [value] })
      | (false, _, rest) => some (.return false, { input with rest := rest }, temp)
    else some (uninterpreted pb tag input temp)
  | .proto =>
    if getTagWireType tag = WireType.length_delimited.code then
      -- No length is read here, no limit is pushed, and the result is not used.
      (mutableProtoData _proto_data_mgr temp).bind fun message =>
        (merge input message).map fun (_, input, message) =>
          let temp := { temp with proto_value := some message }
          if input.rest = [] then (.return true, { input with legitimate_message_end_ := true }, temp) else (.next, input, temp)
    else some (uninterpreted pb tag input temp)
  | .proto_s =>
    if getTagWireType tag = WireType.length_delimited.code then
      match pb.readVarint input.rest with
      | (none, rest) => some (.return false, { input with rest := rest }, temp)
      | (some length, rest) =>
        let input := { input with rest := rest, recursion_depth_ := input.recursion_depth_ + 1 }
        if pb.recursionLimit < input.recursion_depth_ then some (.return false, input, temp)
        else
          let (limit, input) := input.pushLimit (length % 2 ^ 32)
          (merge input ((_proto_data_mgr temp.proto_type).getD [])).map fun (result, input, message) =>
            let temp := { temp with proto_value_s := temp.proto_value_s ++ [message] }
            if result = false ∨ input.legitimate_message_end_ = false then (.return false, input, temp)
            else
              let input := input.popLimit limit
              (.next, { input with recursion_depth_ := input.recursion_depth_ - 1 }, temp)
    else some (uninterpreted pb tag input temp)
  | .other => some (uninterpreted pb tag input temp)

/-- The loop goes on with the field that was read, or returns. -/
def resume (loop : CodedInputStream → List Data → Option (Bool × CodedInputStream × List Data)) (before after : List Data) :
    Outcome × CodedInputStream × Data → Option (Bool × CodedInputStream × List Data)
  | (.next, input, temp) => loop input (before ++ temp :: after)
  | (.return result, input, temp) => some (result, input, before ++ temp :: after)

def mergePartialFromCodedStream : Nat → CodedInputStream → List Data → Option (Bool × CodedInputStream × List Data)
  | 0, _, _ => none
  | fuel + 1, input, proto =>
    let (tag, input) := readTag pb input
    if tag = 0 then some (true, input, proto)
    else
      match proto.span (·.index ≠ getTagFieldNumber tag) with
      -- A number that the message does not have: nothing is skipped.
      | (_, []) => mergePartialFromCodedStream fuel input proto
      | (before, temp :: after) =>
        (readField pb _proto_data_mgr (mergePartialFromCodedStream fuel) tag input temp).bind
          (resume (mergePartialFromCodedStream fuel) before after)

/-- `ParseFromArray`, with a step for every byte. -/
def parseFromArray (data : List UInt8) (proto : List Data) : Option (Bool × List Data) :=
  (mergePartialFromCodedStream pb _proto_data_mgr (data.length + 1) ⟨data, [], false, 0⟩ proto).map fun (result, input, proto) =>
    (result && input.legitimate_message_end_, proto)

end Model

end GameServer.Proto

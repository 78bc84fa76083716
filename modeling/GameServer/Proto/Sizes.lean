import Mathlib.Algebra.BigOperators.Group.List.Basic
import Mathlib.Tactic.Ring
import GameServer.Proto.RoundTrip

/-!
# The size of a message and its bytes

`GetProtoSize` counts for the tag of a field what the place of the field asks for, not its number; it counts booleans, which are not
written, counts every element of `int64_s` as `value`, adds one for a nested message, and does not come to an end at a repeated message
with an element. `Layout` says of every message by how much it is counted too long, field by field, and the number is that of the bytes
exactly when that is nothing and the bytes are fewer than 2³¹ (`getProtoSize_iff`).

Nothing is asked of the fields here: they may be any, and messages that are not set come from the table.
-/

namespace GameServer.Proto

open GameServer.Lib

section Layout

variable (pb : Protobuf) (_proto_data_mgr : String → Option (List Data))

def tagSize (field_number : Int) (type : WireType) : Nat := (pb.varint (makeTag field_number type)).length

/-- The bytes of a field that is no message. -/
def fieldSize (temp : Data) : Nat :=
  match temp.type with
  | .int32 => tagSize pb temp.index .varint + intSize pb (stringToInt32 temp.value)
  | .int64 => tagSize pb temp.index .varint + intSize pb (stringToInt64 temp.value)
  | .string => tagSize pb temp.index .length_delimited + stringSize pb temp.value
  | .int32_s | .int64_s => (temp.value_s.map fun value => tagSize pb temp.index .varint + intSize pb (stringToInt32 value)).sum
  | .string_s => (temp.value_s.map fun value => tagSize pb temp.index .length_delimited + stringSize pb value).sum
  | .bool | .bool_s | .proto | .proto_s | .other => 0

/-- By how much a field that is no message is counted too long, where its place asks for a tag of `off` bytes. -/
def fieldSurplus (off : Nat) (temp : Data) : Int :=
  match temp.type with
  | .int32 | .int64 => off - tagSize pb temp.index .varint
  | .string => off - tagSize pb temp.index .length_delimited
  | .bool => off + 1
  | .int32_s => temp.value_s.length * (off - tagSize pb temp.index .varint)
  | .int64_s =>
    temp.value_s.length * (off - tagSize pb temp.index .varint + intSize pb (stringToInt64 temp.value)) -
      ((temp.value_s.map fun value => intSize pb (stringToInt32 value)).sum : Nat)
  | .string_s => temp.value_s.length * (off - tagSize pb temp.index .length_delimited)
  | .bool_s => temp.value_s.length * (off + 1)
  | .proto | .proto_s | .other => 0

/-- The fields from the place `i` on have `n` bytes and are counted for `d` more. There is none for a repeated message with an element. -/
inductive Layout : Nat → List Data → Int → Nat → Prop where
  | nil {i : Nat} : Layout i [] 0 0
  | field {i : Nat} {temp : Data} {fields : List Data} {d : Int} {n : Nat} (single : temp.type ≠ .proto)
      (empty : temp.type = .proto_s → temp.proto_value_s = []) (rest : Layout (i + 1) fields d n) :
      Layout i (temp :: fields) (fieldSurplus pb (i / 16 + 1) temp + d) (fieldSize pb temp + n)
  | proto {i : Nat} {temp : Data} {message fields : List Data} {d d' : Int} {n n' : Nat} (type : temp.type = .proto)
      (set : mutableProtoData _proto_data_mgr temp = some message) (nested : Layout 0 message d' n') (rest : Layout (i + 1) fields d n) :
      Layout i (temp :: fields) (1 + d' + d) (n' + n)

/-- `GetProtoSize` returns, and its `int32` is the number of bytes that `SerializeWithCachedSizesToArray` writes. -/
def SizeExact (message : List Data) : Prop :=
  ∃ enough, ∀ fuel, enough ≤ fuel → ∃ size bytes, getProtoSize pb _proto_data_mgr fuel message = some size ∧
    serializeWithCachedSizesToArray pb _proto_data_mgr fuel message = some bytes ∧ toInt32 size = bytes.length

end Layout

section Sums

variable {A : Type}

/-- Adding up in a loop. -/
theorem foldlM_add (f : A → Option Nat) (xs : List A) (total : Nat) :
    xs.foldlM (fun total x => (f x).map (total + ·)) total = (xs.mapM f).map fun sizes => total + sizes.sum := by
  induction xs generalizing total with
  | nil => rfl
  | cons x xs ih =>
    rw [List.foldlM_cons, List.mapM_cons]
    cases f x with
    | none => rfl
    | some size =>
      rw [Option.map_some, Option.bind_eq_bind, Option.bind_some, ih]
      cases xs.mapM f with
      | none => rfl
      | some sizes => exact congrArg some (Nat.add_assoc total size sizes.sum)

theorem sum_map_const_add (tag : Nat) (f : A → Nat) (xs : List A) :
    (xs.map fun x => tag + f x).sum = xs.length * tag + (xs.map f).sum := by
  rw [List.sum_map_add, List.map_const', List.sum_replicate, Nat.nsmul_eq_mul]

theorem mapM_cons_eq_some {B : Type} {f : A → Option B} {x : A} {xs : List A} {y : B} {ys : List B} (first : f x = some y)
    (rest : xs.mapM f = some ys) : (x :: xs).mapM f = some (y :: ys) := by
  rw [List.mapM_cons, first, rest]
  rfl

theorem exists_of_mapM_cons {B : Type} {f : A → Option B} {x : A} {xs : List A} {zs : List B} (both : (x :: xs).mapM f = some zs) :
    ∃ y ys, f x = some y ∧ xs.mapM f = some ys := by
  rw [List.mapM_cons] at both
  obtain ⟨y, first, both⟩ := Option.bind_eq_some_iff.1 both
  obtain ⟨ys, rest, -⟩ := Option.bind_eq_some_iff.1 both
  exact ⟨y, ys, first, rest⟩

end Sums

section Sizes

variable {pb : Protobuf} {_proto_data_mgr : String → Option (List Data)} {temp : Data} {fields message : List Data} {i n fuel : Nat}
  {d : Int}

theorem getProtoSize_succ (fuel : Nat) (message : List Data) : getProtoSize pb _proto_data_mgr (fuel + 1) message =
    (message.zipIdx.mapM fun (temp, i) => dataSize pb _proto_data_mgr (getProtoSize pb _proto_data_mgr fuel) (i / 16 + 1) temp).map
      List.sum := by
  rw [getProtoSize, foldlM_add]
  congr 1
  funext sizes
  exact Nat.zero_add sizes.sum

theorem length_writeInt (field_number value : Int) :
    (writeInt pb field_number value).length = tagSize pb field_number .varint + intSize pb value :=
  List.length_append

theorem length_writeString (field_number : Int) (value : List UInt8) :
    (writeString pb field_number value).length = tagSize pb field_number .length_delimited + stringSize pb value := by
  rw [writeString, List.length_append, List.length_append]
  rfl

/-- A field that is no message is counted for its bytes and its surplus. -/
theorem dataSize_eq (off : Nat) (nested : List Data → Option Nat) (single : temp.type ≠ .proto)
    (empty : temp.type = .proto_s → temp.proto_value_s = []) :
    ∃ size, dataSize pb _proto_data_mgr nested off temp = some size ∧ (size : Int) = fieldSize pb temp + fieldSurplus pb off temp := by
  obtain ⟨index, type, value, value_s, proto_type, proto_value, proto_value_s⟩ := temp
  cases type with
  | proto => exact absurd rfl single
  | proto_s =>
    obtain rfl : proto_value_s = [] := empty rfl
    exact ⟨0, rfl, rfl⟩
  | other => exact ⟨0, rfl, rfl⟩
  | _ =>
    refine ⟨_, rfl, ?_⟩
    simp only [fieldSize, fieldSurplus, sum_map_const_add]
    push_cast
    ring

/-- The bytes of a field that is no message. -/
theorem dataToArray_eq (nested : List Data → Option (List UInt8)) (single : temp.type ≠ .proto)
    (empty : temp.type = .proto_s → temp.proto_value_s = []) :
    ∃ bytes, dataToArray pb _proto_data_mgr nested temp = some bytes ∧ bytes.length = fieldSize pb temp := by
  obtain ⟨index, type, value, value_s, proto_type, proto_value, proto_value_s⟩ := temp
  cases type with
  | proto => exact absurd rfl single
  | proto_s =>
    obtain rfl : proto_value_s = [] := empty rfl
    exact ⟨[], rfl, rfl⟩
  | bool | bool_s | other => exact ⟨[], rfl, rfl⟩
  | int32 | int64 => exact ⟨_, rfl, length_writeInt _ _⟩
  | string => exact ⟨_, rfl, length_writeString _ _⟩
  | int32_s | int64_s =>
    refine ⟨_, rfl, ?_⟩
    rw [List.length_flatMap]
    simp only [length_writeInt]
    rfl
  | string_s =>
    refine ⟨_, rfl, ?_⟩
    rw [List.length_flatMap]
    simp only [length_writeString]
    rfl

/-- What has a layout is sized and written, with any fuel that is enough. -/
theorem Layout.sizes (layout : Layout pb _proto_data_mgr i fields d n) : ∃ enough, ∀ fuel, enough ≤ fuel →
    ∃ sizes parts, (fields.zipIdx i).mapM (fun (temp, i) =>
        dataSize pb _proto_data_mgr (getProtoSize pb _proto_data_mgr fuel) (i / 16 + 1) temp) = some sizes ∧
      fields.mapM (dataToArray pb _proto_data_mgr (serializeWithCachedSizesToArray pb _proto_data_mgr fuel)) = some parts ∧
      parts.flatten.length = n ∧ (sizes.sum : Int) = n + d := by
  induction layout with
  | nil => exact ⟨0, fun _ _ => ⟨[], [], rfl, rfl, rfl, rfl⟩⟩
  | @field i temp fields d n single empty _ ih =>
    obtain ⟨enough, ih⟩ := ih
    refine ⟨enough, fun fuel le => ?_⟩
    obtain ⟨sizes, parts, counted, written, length, sum⟩ := ih fuel le
    obtain ⟨size, first, size_eq⟩ := dataSize_eq (i / 16 + 1) (getProtoSize pb _proto_data_mgr fuel) single empty
    obtain ⟨bytes, first', bytes_eq⟩ := dataToArray_eq (serializeWithCachedSizesToArray pb _proto_data_mgr fuel) single empty
    refine ⟨size :: sizes, bytes :: parts, ?_, mapM_cons_eq_some first' written, ?_, ?_⟩
    · rw [List.zipIdx_cons]
      exact mapM_cons_eq_some first counted
    · rw [List.flatten_cons, List.length_append]
      omega
    · rw [List.sum_cons]
      omega
  | @proto i temp message fields d d' n n' type set _ _ ih' ih =>
    obtain ⟨enough, ih⟩ := ih
    obtain ⟨enough', ih'⟩ := ih'
    refine ⟨max enough (enough' + 1), fun fuel le => ?_⟩
    obtain ⟨sizes, parts, counted, written, length, sum⟩ := ih fuel (by omega)
    obtain ⟨fuel, rfl⟩ : ∃ k, fuel = k + 1 := ⟨fuel - 1, by omega⟩
    obtain ⟨sizes', parts', counted', written', length', sum'⟩ := ih' fuel (by omega)
    have first : dataSize pb _proto_data_mgr (getProtoSize pb _proto_data_mgr (fuel + 1)) (i / 16 + 1) temp = some (1 + sizes'.sum) := by
      rw [dataSize, type, set, Option.bind_some, getProtoSize_succ, counted']
      rfl
    have first' : dataToArray pb _proto_data_mgr (serializeWithCachedSizesToArray pb _proto_data_mgr (fuel + 1)) temp =
        some parts'.flatten := by
      rw [dataToArray, type, set, Option.bind_some, serializeWithCachedSizesToArray, written']
      rfl
    refine ⟨(1 + sizes'.sum) :: sizes, parts'.flatten :: parts, ?_, mapM_cons_eq_some first' written, ?_, ?_⟩
    · rw [List.zipIdx_cons]
      exact mapM_cons_eq_some first counted
    · rw [List.flatten_cons, List.length_append]
      omega
    · rw [List.sum_cons]
      omega

theorem layout_of_mapM (nested : ∀ message size, getProtoSize pb _proto_data_mgr fuel message = some size →
      ∃ d n, Layout pb _proto_data_mgr 0 message d n) {sizes : List Nat}
    (counted : (fields.zipIdx i).mapM (fun (temp, i) =>
      dataSize pb _proto_data_mgr (getProtoSize pb _proto_data_mgr fuel) (i / 16 + 1) temp) = some sizes) :
    ∃ d n, Layout pb _proto_data_mgr i fields d n := by
  induction fields generalizing i sizes with
  | nil => exact ⟨0, 0, .nil⟩
  | cons temp fields ih =>
    rw [List.zipIdx_cons] at counted
    obtain ⟨size, sizes, first, rest⟩ := exists_of_mapM_cons counted
    obtain ⟨d, n, rest⟩ := ih rest
    change dataSize pb _proto_data_mgr (getProtoSize pb _proto_data_mgr fuel) (i / 16 + 1) temp = some size at first
    by_cases type : temp.type = .proto
    · rw [dataSize, type] at first
      obtain ⟨message, set, first⟩ := Option.bind_eq_some_iff.1 first
      obtain ⟨size', inner, -⟩ := Option.map_eq_some_iff.1 first
      obtain ⟨d', n', inner⟩ := nested message size' inner
      exact ⟨_, _, .proto type set inner rest⟩
    · refine ⟨_, _, .field type (fun repeated => ?_) rest⟩
      rw [dataSize, repeated] at first
      cases empty : temp.proto_value_s with
      | nil => rfl
      | cons message messages =>
        rw [empty] at first
        cases first

/-- What is sized has a layout. -/
theorem layout_of_getProtoSize {size : Nat} (counted : getProtoSize pb _proto_data_mgr fuel message = some size) :
    ∃ d n, Layout pb _proto_data_mgr 0 message d n := by
  induction fuel generalizing message size with
  | zero => cases counted
  | succ fuel ih =>
    rw [getProtoSize_succ] at counted
    obtain ⟨sizes, counted, -⟩ := Option.map_eq_some_iff.1 counted
    exact layout_of_mapM (fun message size counted => ih counted) counted

/-- A message with a layout has this size and these bytes. -/
theorem Layout.size (layout : Layout pb _proto_data_mgr 0 message d n) : ∃ enough, ∀ fuel, enough ≤ fuel → ∃ size bytes,
    getProtoSize pb _proto_data_mgr fuel message = some size ∧
      serializeWithCachedSizesToArray pb _proto_data_mgr fuel message = some bytes ∧ bytes.length = n ∧ (size : Int) = n + d := by
  obtain ⟨enough, sizes⟩ := layout.sizes
  refine ⟨enough + 1, fun fuel le => ?_⟩
  obtain ⟨fuel, rfl⟩ : ∃ k, fuel = k + 1 := ⟨fuel - 1, by omega⟩
  obtain ⟨sizes, parts, counted, written, length, sum⟩ := sizes fuel (by omega)
  refine ⟨sizes.sum, parts.flatten, ?_, ?_, length, sum⟩
  · rw [getProtoSize_succ, counted]
    rfl
  · rw [serializeWithCachedSizesToArray, written]
    rfl

theorem toInt32_eq_iff {size : Nat} (sum : (size : Int) = n + d) : toInt32 size = n ↔ (2 ^ 32 : Int) ∣ d ∧ n < 2 ^ 31 := by
  rw [toInt32, Int.bmod_def]
  omega

theorem SizeExact.layout (exact' : SizeExact pb _proto_data_mgr message) :
    ∃ d n, Layout pb _proto_data_mgr 0 message d n ∧ (2 ^ 32 : Int) ∣ d ∧ n < 2 ^ 31 := by
  obtain ⟨enough, exact'⟩ := exact'
  obtain ⟨size, bytes, counted, -, -⟩ := exact' enough (Nat.le_refl _)
  obtain ⟨d, n, layout⟩ := layout_of_getProtoSize counted
  obtain ⟨enough', sizes⟩ := layout.size
  obtain ⟨size, bytes, counted, written, same⟩ := exact' (max enough enough') (by omega)
  obtain ⟨size', bytes', counted', written', length, sum⟩ := sizes (max enough enough') (by omega)
  obtain rfl := Option.some.inj (counted.symm.trans counted')
  obtain rfl := Option.some.inj (written.symm.trans written')
  rw [length] at same
  exact ⟨d, n, layout, (toInt32_eq_iff sum).1 same⟩

theorem Layout.exact (layout : Layout pb _proto_data_mgr 0 message d n) (counted : (2 ^ 32 : Int) ∣ d) (short : n < 2 ^ 31) :
    SizeExact pb _proto_data_mgr message := by
  obtain ⟨enough, sizes⟩ := layout.size
  refine ⟨enough, fun fuel le => ?_⟩
  obtain ⟨size, bytes, size_eq, bytes_eq, length, sum⟩ := sizes fuel le
  refine ⟨size, bytes, size_eq, bytes_eq, ?_⟩
  rw [length]
  exact (toInt32_eq_iff sum).2 ⟨counted, short⟩

/-- Where a message is counted for its bytes, the length before it and the buffer asked for are right. -/
theorem Layout.writeMessage (layout : Layout pb _proto_data_mgr 0 message 0 n) (short : n < 2 ^ 31) : ∃ enough, ∀ fuel, enough ≤ fuel →
    ∃ bytes, serializeWithCachedSizesToArray pb _proto_data_mgr fuel message = some bytes ∧ bytes.length = n ∧
      ∀ toStream index (output : CodedOutputStream), (∀ pos, pb.direct pos n = true) →
        writeMessageMaybeToArray pb (getProtoSize pb _proto_data_mgr fuel) (serializeWithCachedSizesToArray pb _proto_data_mgr fuel)
          toStream index message output =
        some (output.write (pb.varint (makeTag index .length_delimited) ++ (pb.varint n ++ bytes))) := by
  obtain ⟨enough, sizes⟩ := layout.size
  refine ⟨enough, fun fuel le => ?_⟩
  obtain ⟨size, bytes, counted, written, length, sum⟩ := sizes fuel le
  obtain rfl : size = n := by omega
  refine ⟨bytes, written, length, fun toStream index output direct => ?_⟩
  have small : size % 2 ^ 32 = size := Nat.mod_eq_of_lt (by omega)
  rw [writeMessageMaybeToArray, counted, Option.bind_some, if_pos (direct _), written, small,
    ← CodedOutputStream.write_write, ← CodedOutputStream.write_write, ← length]
  rfl

/-- **The size is that of the bytes** if and only if the message has a layout, is counted for nothing more, as an `int32` counts, and has
fewer than 2³¹ bytes. -/
theorem getProtoSize_iff (pb : Protobuf) (_proto_data_mgr : String → Option (List Data)) (message : List Data) :
    SizeExact pb _proto_data_mgr message ↔ ∃ d n, Layout pb _proto_data_mgr 0 message d n ∧ (2 ^ 32 : Int) ∣ d ∧ n < 2 ^ 31 :=
  ⟨SizeExact.layout, fun ⟨_, _, layout, counted, short⟩ => layout.exact counted short⟩

end Sizes

/-- A message with the field number 16. -/
def wideTable (name : String) : Option (List Data) :=
  if name = "wide" then some [⟨16, .int32, [], [], "", none, []⟩] else none

theorem wideTable_schema : Schema wideTable := by
  refine .single (by decide) (by simp) fun temp mem => ?_
  obtain rfl := List.mem_singleton.1 mem
  exact ⟨rfl, rfl, rfl, rfl⟩

/-- The tag of the field 16 has two bytes, and one is counted. -/
theorem getProtoSize_wide : Schema wideTable ∧ wideTable "wide" = some [⟨16, .int32, [], [], "", none, []⟩] ∧
    List.Forall₂ (Conforms wideTable) [⟨16, .int32, [], [], "", none, []⟩] [⟨16, .int32, intText 5, [], "", none, []⟩] ∧
    getProtoSize base128 wideTable 1 [⟨16, .int32, intText 5, [], "", none, []⟩] = some 2 ∧
    serializeWithCachedSizesToArray base128 wideTable 1 [⟨16, .int32, intText 5, [], "", none, []⟩] = some [128, 1, 5] ∧
    ¬ SizeExact base128 wideTable [⟨16, .int32, intText 5, [], "", none, []⟩] := by
  refine ⟨wideTable_schema, rfl, .cons (.int32 rfl 5 (by decide) (by decide)) .nil, by decide +kernel, by decide +kernel, ?_⟩
  intro exact'
  obtain ⟨d, n, layout, counted, -⟩ := exact'.layout
  cases layout with
  | proto type => cases type
  | field single empty rest =>
    cases rest
    have surplus : fieldSurplus base128 (0 / 16 + 1) ⟨16, .int32, intText 5, [], "", none, []⟩ = -1 := by decide +kernel
    rw [surplus] at counted
    omega

end GameServer.Proto

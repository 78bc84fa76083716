import Mathlib.Data.List.TakeDrop
import GameServer.Lib.Varint
import GameServer.Proto.Data

/-!
# What the parser gets of a message

Nested messages are read without their length, so the trees here have only nested messages that write nothing
(`Flat`). Of such a tree the parser gets every field but the booleans and the repeated messages, which are not
written, and the repeated 64-bit numbers, which are cut to 32 bits (`decoded`). The tree comes back exactly
when it has none of these (`round_trip`).

`Reads` says what the parser does with the bytes of one field, whatever fields are around it and whatever bytes
come after.
-/

namespace GameServer.Proto

open GameServer.Lib

/-- A field of the table, without a value. -/
structure Blank (temp : Data) : Prop where
  value : temp.value = []
  value_s : temp.value_s = []
  proto_value : temp.proto_value = none
  proto_value_s : temp.proto_value_s = []

/-- Every message of the table has distinct field numbers. -/
structure Schema (_proto_data_mgr : String → Option (List Data)) : Prop where
  distinct : ∀ {name template}, _proto_data_mgr name = some template → (template.map Data.index).Nodup
  numbers : ∀ {name template}, _proto_data_mgr name = some template → ∀ temp ∈ template, 1 ≤ temp.index ∧ temp.index < 2 ^ 29
  blank : ∀ {name template}, _proto_data_mgr name = some template → ∀ temp ∈ template, Blank temp

/-- The second is the first, a field of the table, with a value of its type. -/
inductive Conforms (_proto_data_mgr : String → Option (List Data)) : Data → Data → Prop where
  | int32 {temp : Data} (type : temp.type = .int32) (n : Int) (low : -2 ^ 31 ≤ n) (high : n < 2 ^ 31) :
      Conforms _proto_data_mgr temp { temp with value := intText n }
  | int64 {temp : Data} (type : temp.type = .int64) (n : Int) (low : -2 ^ 63 ≤ n) (high : n < 2 ^ 63) :
      Conforms _proto_data_mgr temp { temp with value := intText n }
  | string {temp : Data} (type : temp.type = .string) (value : List UInt8) :
      Conforms _proto_data_mgr temp { temp with value := value }
  | bool {temp : Data} (type : temp.type = .bool) (b : Bool) :
      Conforms _proto_data_mgr temp { temp with value := boolText b.toNat }
  | int32_s {temp : Data} (type : temp.type = .int32_s) (ns : List Int) (range : ∀ n ∈ ns, -2 ^ 31 ≤ n ∧ n < 2 ^ 31) :
      Conforms _proto_data_mgr temp { temp with value_s := ns.map intText }
  | int64_s {temp : Data} (type : temp.type = .int64_s) (ns : List Int) (range : ∀ n ∈ ns, -2 ^ 63 ≤ n ∧ n < 2 ^ 63) :
      Conforms _proto_data_mgr temp { temp with value_s := ns.map intText }
  | string_s {temp : Data} (type : temp.type = .string_s) (values : List (List UInt8)) :
      Conforms _proto_data_mgr temp { temp with value_s := values }
  | bool_s {temp : Data} (type : temp.type = .bool_s) (bs : List Bool) :
      Conforms _proto_data_mgr temp { temp with value_s := bs.map fun b => boolText b.toNat }
  | proto {temp : Data} (type : temp.type = .proto) {template message : List Data}
      (found : _proto_data_mgr temp.proto_type = some template)
      (all : List.Forall₂ (Conforms _proto_data_mgr) template message) :
      Conforms _proto_data_mgr temp { temp with proto_value := some message }
  | proto_s {temp : Data} (type : temp.type = .proto_s) {template : List Data} (messages : List (List Data))
      (found : _proto_data_mgr temp.proto_type = some template)
      (all : ∀ message ∈ messages, List.Forall₂ (Conforms _proto_data_mgr) template message) :
      Conforms _proto_data_mgr temp { temp with proto_value_s := messages }

/-- A repeated field without elements. -/
structure EmptyField (temp : Data) : Prop where
  repeated : temp.type = .int32_s ∨ temp.type = .int64_s ∨ temp.type = .string_s ∨ temp.type = .bool_s ∨ temp.type = .proto_s
  value_s : temp.value_s = []
  proto_value_s : temp.proto_value_s = []

/-- A nested message writes nothing. -/
def Flat (temp : Data) : Prop := temp.type = .proto → ∀ message ∈ temp.proto_value, ∀ field ∈ message, EmptyField field

/-- The field comes back. -/
def Kept (temp : Data) : Prop :=
  match temp.type with
  | .bool => False
  | .bool_s => temp.value_s = []
  | .proto_s => temp.proto_value_s = []
  | .int64_s => ∀ value ∈ temp.value_s, -2 ^ 31 ≤ stringToInt64 value ∧ stringToInt64 value < 2 ^ 31
  | _ => True

/-- What comes back of a field. -/
def decoded (temp : Data) : Data :=
  match temp.type with
  | .bool => { temp with value := [] }
  | .bool_s => { temp with value_s := [] }
  | .proto_s => { temp with proto_value_s := [] }
  | .int64_s => { temp with value_s := temp.value_s.map fun value => intText (stringToInt32 value) }
  | _ => temp

section Numbers

variable {n : Int}

theorem int32Text_emod (low : -2 ^ 31 ≤ n) (high : n < 2 ^ 31) : int32Text (n % 2 ^ 64).toNat = intText n := by
  rw [int32Text, toInt32, Int.toNat_of_nonneg (Int.emod_nonneg n (by decide)), Int.bmod_def]
  congr 1
  omega

theorem int64Text_emod (low : -2 ^ 63 ≤ n) (high : n < 2 ^ 63) : int64Text (n % 2 ^ 64).toNat = intText n := by
  rw [int64Text, toInt64, Int.toNat_of_nonneg (Int.emod_nonneg n (by decide)), Int.bmod_def]
  congr 1
  omega

theorem stringToInt32_intText (n : Int) : stringToInt32 (intText n) = max (-2 ^ 31) (min (2 ^ 31 - 1) n) :=
  readInt_intText (by decide) (by decide) n

theorem stringToInt64_intText (low : -2 ^ 63 ≤ n) (high : n < 2 ^ 63) : stringToInt64 (intText n) = n := by
  rw [stringToInt64, readInt_intText (by decide) (by decide)]
  omega

theorem stringToInt32_bounds (n : Int) : -2 ^ 31 ≤ stringToInt32 (intText n) ∧ stringToInt32 (intText n) < 2 ^ 31 := by
  rw [stringToInt32_intText]
  omega

theorem boolText_ne_nil (n : Nat) : boolText n ≠ [] := by
  rw [boolText]
  split_ifs <;> exact List.cons_ne_nil _ _

end Numbers

section Trees

variable {_proto_data_mgr : String → Option (List Data)} {temp tree : Data} {template message : List Data}

/-- A message that writes nothing is the one of the table. -/
theorem Conforms.eq_of_emptyField (conforms : Conforms _proto_data_mgr temp tree) (blank : Blank temp) (empty : EmptyField tree) :
    tree = temp := by
  obtain ⟨index, type, value, value_s, proto_type, proto_value, proto_value_s⟩ := temp
  obtain ⟨blank_value, blank_value_s, blank_proto, blank_proto_s⟩ := blank
  obtain ⟨repeated, none, none'⟩ := empty
  simp only at blank_value blank_value_s blank_proto blank_proto_s
  cases conforms with
  | int32 type | int64 type | string type | bool type | proto type =>
    simp only at type repeated
    rw [type] at repeated
    simp at repeated
  | int32_s type | int64_s type | string_s type | bool_s type =>
    simp only at none
    rw [none, blank_value_s]
  | proto_s type =>
    simp only at none'
    rw [none', blank_proto_s]

theorem eq_of_emptyField (conforms : List.Forall₂ (Conforms _proto_data_mgr) template message)
    (blank : ∀ temp ∈ template, Blank temp) (empty : ∀ field ∈ message, EmptyField field) : message = template := by
  induction conforms with
  | nil => rfl
  | cons first rest ih =>
    rw [first.eq_of_emptyField (blank _ List.mem_cons_self) (empty _ List.mem_cons_self),
      ih (fun temp mem => blank temp (List.mem_cons_of_mem _ mem)) fun field mem => empty field (List.mem_cons_of_mem _ mem)]

theorem Conforms.index (conforms : Conforms _proto_data_mgr temp tree) : tree.index = temp.index := by
  cases conforms <;> rfl

/-- A field comes back as it is exactly when it is kept. -/
theorem Conforms.decoded_eq_iff (conforms : Conforms _proto_data_mgr temp tree) : decoded tree = tree ↔ Kept tree := by
  cases conforms with
  | int32 type | int64 type | string type | int32_s type | string_s type | proto type =>
    simp only [decoded, Kept, type]
  | bool type b =>
    simp only [decoded, Kept, type, Data.mk.injEq, iff_false]
    rintro ⟨-, -, none, -⟩
    exact boolText_ne_nil _ none.symm
  | bool_s type bs =>
    simp only [decoded, Kept, type, Data.mk.injEq, true_and, and_true]
    exact eq_comm
  | proto_s type messages =>
    simp only [decoded, Kept, type, Data.mk.injEq, true_and]
    exact eq_comm
  | int64_s type ns range =>
    simp only [decoded, Kept, type, Data.mk.injEq, true_and, and_true, List.map_map]
    rw [List.map_inj_left, List.forall_mem_map]
    constructor
    · intro same n mem
      obtain ⟨low, high⟩ := range n mem
      have back := intText_injective (same n mem)
      rw [stringToInt32_intText] at back
      rw [stringToInt64_intText low high]
      omega
    · intro bounds n mem
      obtain ⟨low, high⟩ := range n mem
      have small := bounds n mem
      rw [stringToInt64_intText low high] at small
      show intText (stringToInt32 (intText n)) = intText n
      rw [stringToInt32_intText]
      congr 1
      omega

theorem map_decoded_eq_iff (conforms : List.Forall₂ (Conforms _proto_data_mgr) template message) :
    message.map decoded = message ↔ ∀ temp ∈ message, Kept temp := by
  induction conforms with
  | nil => simp
  | cons first rest ih => rw [List.map_cons, List.cons.injEq, first.decoded_eq_iff, ih, List.forall_mem_cons]

end Trees

section Writing

variable (pb : Protobuf) {_proto_data_mgr : String → Option (List Data)}

/-- What is written of a field, if its nested message writes nothing. -/
def fieldBytes (temp : Data) : List UInt8 :=
  match temp.type with
  | .int32 => writeInt pb temp.index (stringToInt32 temp.value)
  | .int64 => writeInt pb temp.index (stringToInt64 temp.value)
  | .string => writeString pb temp.index temp.value
  | .int32_s | .int64_s => temp.value_s.flatMap fun value => writeInt pb temp.index (stringToInt32 value)
  | .string_s => temp.value_s.flatMap (writeString pb temp.index)
  | .proto => pb.varint (makeTag temp.index .length_delimited) ++ pb.varint 0
  | .bool | .bool_s | .proto_s | .other => []

variable {pb}

theorem CodedOutputStream.write_nil (output : CodedOutputStream) : output.write [] = output := by
  obtain ⟨memory, pos⟩ := output
  simp [write, put, advance]

theorem CodedOutputStream.write_write (output : CodedOutputStream) (first second : List UInt8) :
    (output.write first).write second = output.write (first ++ second) := by
  obtain ⟨memory, pos⟩ := output
  simp only [write, put, advance, List.length_append, mk.injEq]
  refine ⟨?_, by omega⟩
  funext i
  by_cases before : i < pos
  · rw [if_neg (by omega), if_neg (by omega), if_neg (by omega)]
  · by_cases behind : pos + first.length ≤ i
    · rw [if_pos behind, if_pos (by omega), if_pos (by omega), List.getElem?_append_right (by omega),
        List.getElem?_eq_none (by omega : first.length ≤ i - pos), Option.getD_none, show i - (pos + first.length) = i - pos - first.length by omega]
    · rw [if_neg behind, if_pos (by omega), if_pos (by omega), List.getElem?_append_left (by omega)]

theorem CodedOutputStream.bytes_write (memory : Nat → UInt8) (bytes : List UInt8) : (write ⟨memory, 0⟩ bytes).bytes = bytes := by
  apply List.ext_getElem
  · simp [CodedOutputStream.bytes, write, put, advance]
  · intro i less less'
    simp [CodedOutputStream.bytes, write, put, advance, less']

theorem mutableProtoData_some {index : Int} {type : FieldType} {value : List UInt8} {value_s : List (List UInt8)} {proto_type : String}
    {message : List Data} {proto_value_s : List (List Data)} :
    mutableProtoData _proto_data_mgr ⟨index, type, value, value_s, proto_type, some message, proto_value_s⟩ = some message := rfl

/-- A message without elements has no size and no bytes, in both paths. -/
theorem getProtoSize_empty {message : List Data} (empty : ∀ field ∈ message, EmptyField field) (fuel : Nat) :
    getProtoSize pb _proto_data_mgr (fuel + 1) message = some 0 := by
  have each : ∀ field ∈ message, ∀ off, dataSize pb _proto_data_mgr (getProtoSize pb _proto_data_mgr fuel) off field = some 0 := by
    intro field mem off
    obtain ⟨repeated, none, none'⟩ := empty field mem
    rcases repeated with type | type | type | type | type <;> simp [dataSize, type, none, none']
  have all : ∀ (pairs : List (Data × Nat)), (∀ pair ∈ pairs, pair.1 ∈ message) →
      pairs.foldlM (fun total_size pair =>
        (dataSize pb _proto_data_mgr (getProtoSize pb _proto_data_mgr fuel) (pair.2 / 16 + 1) pair.1).map (total_size + ·)) 0 = some 0 := by
    intro pairs
    induction pairs with
    | nil => exact fun _ => rfl
    | cons pair pairs ih =>
      intro inside
      obtain ⟨temp, i⟩ := pair
      rw [List.foldlM_cons]
      simp only [each temp (inside _ List.mem_cons_self)]
      exact ih fun pair mem => inside pair (List.mem_cons_of_mem _ mem)
  apply all
  rintro ⟨temp, i⟩ mem
  exact List.fst_mem_of_mem_zipIdx mem

theorem serializeToArray_empty {message : List Data} (empty : ∀ field ∈ message, EmptyField field) (fuel : Nat) :
    serializeWithCachedSizesToArray pb _proto_data_mgr (fuel + 1) message = some [] := by
  rw [serializeWithCachedSizesToArray]
  induction message with
  | nil => rfl
  | cons field rest ih =>
    have none : dataToArray pb _proto_data_mgr (serializeWithCachedSizesToArray pb _proto_data_mgr fuel) field = some [] := by
      obtain ⟨repeated, none, none'⟩ := empty field List.mem_cons_self
      rcases repeated with type | type | type | type | type <;> simp [dataToArray, type, none, none']
    have rest := ih fun field mem => empty field (List.mem_cons_of_mem _ mem)
    rw [Option.map_eq_some_iff] at rest ⊢
    obtain ⟨lists, all, flat⟩ := rest
    refine ⟨[] :: lists, ?_, flat⟩
    rw [List.mapM_cons, none, all]
    rfl

theorem serialize_empty {message : List Data} (empty : ∀ field ∈ message, EmptyField field) (fuel : Nat) (output : CodedOutputStream) :
    serializeWithCachedSizes pb _proto_data_mgr (fuel + 1) message output = some output := by
  rw [serializeWithCachedSizes]
  induction message with
  | nil => rfl
  | cons field rest ih =>
    obtain ⟨repeated, none, none'⟩ := empty field List.mem_cons_self
    rw [List.foldlM_cons]
    have same : ∀ writeMessage, writeData pb _proto_data_mgr writeMessage output field = some output := by
      intro writeMessage
      rcases repeated with type | type | type | type | type <;> simp [writeData, type, none, CodedOutputStream.write_nil]
    rw [same]
    exact ih fun field mem => empty field (List.mem_cons_of_mem _ mem)

/-- A message of the table is written field by field. -/
theorem serialize_flat {template message : List Data} (conforms : List.Forall₂ (Conforms _proto_data_mgr) template message)
    (blank : ∀ temp ∈ template, Blank temp) (flat : ∀ temp ∈ message, Flat temp) (fuel : Nat) (output : CodedOutputStream) :
    serializeWithCachedSizes pb _proto_data_mgr (fuel + 2) message output = some (output.write (message.flatMap (fieldBytes pb))) := by
  rw [serializeWithCachedSizes]
  induction conforms generalizing output with
  | nil => exact congrArg some output.write_nil.symm
  | @cons temp tree template message first rest ih =>
    have one : writeData pb _proto_data_mgr
        (writeMessageMaybeToArray pb (getProtoSize pb _proto_data_mgr (fuel + 1))
          (serializeWithCachedSizesToArray pb _proto_data_mgr (fuel + 1)) (serializeWithCachedSizes pb _proto_data_mgr (fuel + 1)))
        output tree = some (output.write (fieldBytes pb tree)) := by
      have nothing := blank temp List.mem_cons_self
      have level := flat tree List.mem_cons_self
      cases first with
      | int32 type | int64 type | string type | int32_s type | int64_s type | string_s type =>
        simp only [writeData, fieldBytes, type]
      | bool type | bool_s type =>
        simp only [writeData, fieldBytes, type, CodedOutputStream.write_nil]
      | proto_s type =>
        simp only [writeData, fieldBytes, type, nothing.value_s, List.length_nil, List.range_zero, List.foldlM_nil,
          CodedOutputStream.write_nil]
        rfl
      | proto type =>
        have empty := level type _ rfl
        simp only [writeData, fieldBytes, type, mutableProtoData_some, Option.bind_some,
          writeMessageMaybeToArray, getProtoSize_empty empty, Nat.zero_mod, serializeToArray_empty empty, serialize_empty empty,
          Option.map_some, CodedOutputStream.write_write]
        split_ifs
        · exact congrArg some (CodedOutputStream.write_nil _)
        · rfl
    rw [List.foldlM_cons, one]
    show List.foldlM _ (output.write _) _ = _
    rw [ih (fun temp mem => blank temp (List.mem_cons_of_mem _ mem)) fun temp mem => flat temp (List.mem_cons_of_mem _ mem),
      CodedOutputStream.write_write, List.flatMap_cons]

end Writing

section Reading

variable {pb : Protobuf} {_proto_data_mgr : String → Option (List Data)} {temp temp' temp'' tree : Data} {bytes bytes' : List UInt8}

variable (pb) in
theorem varint_ne_nil {n : Nat} (small : n < 2 ^ 64) : pb.varint n ≠ [] := by
  intro none
  have first := pb.readVarint_varint n (pb.varint (if n = 0 then 1 else 0)) small
  have second := pb.readVarint_varint (if n = 0 then 1 else 0) [] (by split_ifs <;> decide)
  rw [none, List.nil_append] at first
  rw [List.append_nil, first] at second
  have := Option.some.inj (Prod.mk.inj second).1
  split_ifs at this <;> omega

variable (pb _proto_data_mgr) in
/-- Behind the bytes the parser has `temp'` where it had `temp`, among any fields, with a step for every byte left. -/
def Reads (bytes : List UInt8) (temp temp' : Data) : Prop :=
  ∀ (before after : List Data) (tail later : List UInt8) (legitimate : Bool) (depth fuel : Nat),
    temp.index ∉ before.map Data.index → (bytes ++ tail).length < fuel →
    ∃ fuel', tail.length < fuel' ∧
      mergePartialFromCodedStream pb _proto_data_mgr fuel ⟨bytes ++ tail, later, legitimate, depth⟩ (before ++ temp :: after) =
        mergePartialFromCodedStream pb _proto_data_mgr fuel' ⟨tail, later, legitimate, depth⟩ (before ++ temp' :: after)

theorem Reads.refl : Reads pb _proto_data_mgr [] temp temp :=
  fun _ _ _ _ _ _ fuel _ enough => ⟨fuel, enough, rfl⟩

theorem Reads.append (first : Reads pb _proto_data_mgr bytes temp temp') (second : Reads pb _proto_data_mgr bytes' temp' temp'')
    (index : temp'.index = temp.index) : Reads pb _proto_data_mgr (bytes ++ bytes') temp temp'' := by
  intro before after tail later legitimate depth fuel absent enough
  rw [List.append_assoc] at enough ⊢
  obtain ⟨fuel', enough', same⟩ := first before after (bytes' ++ tail) later legitimate depth fuel absent enough
  obtain ⟨fuel'', enough'', same'⟩ := second before after tail later legitimate depth fuel' (by rw [index]; exact absent) enough'
  exact ⟨fuel'', enough'', same.trans same'⟩

/-- A field number that a tag has room for. -/
def Numbered (temp : Data) : Prop := 1 ≤ temp.index ∧ temp.index < 2 ^ 29

theorem makeTag_eq (numbered : Numbered temp) (type : WireType) :
    makeTag temp.index type ≠ 0 ∧ makeTag temp.index type < 2 ^ 32 ∧ getTagFieldNumber (makeTag temp.index type) = temp.index ∧
      getTagWireType (makeTag temp.index type) = type.code := by
  obtain ⟨low, high⟩ := numbered
  have code : type.code ≤ 5 := by cases type <;> decide
  unfold makeTag getTagFieldNumber getTagWireType
  omega

theorem span_index {before after : List Data} (absent : temp.index ∉ before.map Data.index) :
    (before ++ temp :: after).span (·.index ≠ temp.index) = (before, temp :: after) := by
  have other : ∀ field ∈ before, decide (field.index ≠ temp.index) = true := by
    intro field mem
    apply decide_eq_true
    intro same
    exact absent (List.mem_map.2 ⟨field, mem, same⟩)
  have here : ¬ decide (temp.index ≠ temp.index) = true := by simp
  rw [List.span_eq_takeWhile_dropWhile, List.takeWhile_append_of_pos other, List.dropWhile_append_of_pos other,
    List.takeWhile_cons_of_neg (p := fun field : Data => field.index ≠ temp.index) here,
    List.dropWhile_cons_of_neg (p := fun field : Data => field.index ≠ temp.index) here, List.append_nil]

/-- A tag brings the parser to its field. -/
theorem merge_tag (numbered : Numbered temp) (type : WireType) {before after : List Data} (absent : temp.index ∉ before.map Data.index)
    (tail later : List UInt8) (legitimate : Bool) (depth fuel : Nat) :
    mergePartialFromCodedStream pb _proto_data_mgr (fuel + 1) ⟨pb.varint (makeTag temp.index type) ++ tail, later, legitimate, depth⟩
        (before ++ temp :: after) =
      (readField pb _proto_data_mgr (mergePartialFromCodedStream pb _proto_data_mgr fuel) (makeTag temp.index type)
        ⟨tail, later, legitimate, depth⟩ temp).bind (resume (mergePartialFromCodedStream pb _proto_data_mgr fuel) before after) := by
  obtain ⟨nonzero, small, number, -⟩ := makeTag_eq numbered type
  have some : pb.varint (makeTag temp.index type) ++ tail ≠ [] := by
    intro none
    exact varint_ne_nil pb (by omega) (List.append_eq_nil_iff.1 none).1
  rw [mergePartialFromCodedStream, readTag, if_neg some, pb.readVarint_varint _ _ (by omega)]
  simp only [Nat.mod_eq_of_lt small, if_neg nonzero, number, span_index absent]

theorem Reads.of_readField {type : WireType} {payload : List UInt8} (numbered : Numbered temp)
    (read : ∀ merge tail later legitimate depth, readField pb _proto_data_mgr merge (makeTag temp.index type)
      ⟨payload ++ tail, later, legitimate, depth⟩ temp = some (.next, ⟨tail, later, legitimate, depth⟩, temp')) :
    Reads pb _proto_data_mgr (pb.varint (makeTag temp.index type) ++ payload) temp temp' := by
  intro before after tail later legitimate depth fuel absent enough
  obtain ⟨fuel, rfl⟩ : ∃ k, fuel = k + 1 := ⟨fuel - 1, by omega⟩
  obtain ⟨-, small, -, -⟩ := makeTag_eq numbered type
  have pos := List.length_pos_of_ne_nil (varint_ne_nil pb (n := makeTag temp.index type) (by omega))
  refine ⟨fuel, ?_, ?_⟩
  · simp only [List.length_append] at enough
    omega
  · rw [List.append_assoc, merge_tag numbered type absent, read]
    rfl

/-- One number is read, by a field that reads numbers. -/
theorem reads_writeInt {text : Nat → List UInt8} {assign : List UInt8 → Data} (numbered : Numbered temp) (value : Int)
    (number : ∀ merge tag input, readField pb _proto_data_mgr merge tag input temp = some (readNumber pb text assign tag input temp)) :
    Reads pb _proto_data_mgr (writeInt pb temp.index value) temp (assign (text (value % 2 ^ 64).toNat)) := by
  obtain ⟨-, -, -, wire⟩ := makeTag_eq numbered .varint
  refine Reads.of_readField numbered fun merge tail later legitimate depth => ?_
  have small : (value % 2 ^ 64).toNat < 2 ^ 64 := by omega
  rw [number, readNumber, if_pos wire, pb.readVarint_varint _ _ small]

theorem reads_writeString (assign : List UInt8 → Data) (numbered : Numbered temp) (value : List UInt8) (short : value.length < 2 ^ 31)
    (string : ∀ merge input tail, pb.readString input = (true, value, tail) → ∀ later legitimate depth,
      readField pb _proto_data_mgr merge (makeTag temp.index .length_delimited) ⟨input, later, legitimate, depth⟩ temp =
        some (.next, ⟨tail, later, legitimate, depth⟩, assign value)) :
    Reads pb _proto_data_mgr (writeString pb temp.index value) temp (assign value) := by
  refine Reads.of_readField numbered fun merge tail later legitimate depth => ?_
  apply string
  rw [Nat.mod_eq_of_lt (by omega), List.append_assoc]
  exact pb.readString_varint value tail short

/-- The elements of a repeated field are read one after the other. -/
theorem reads_repeated (temp : Data) (write read : List UInt8 → List UInt8) (values : List (List UInt8))
    (one : ∀ value ∈ values, ∀ done, Reads pb _proto_data_mgr (write value) { temp with value_s := done }
      { temp with value_s := done ++ [read value] }) (done : List (List UInt8)) :
    Reads pb _proto_data_mgr (values.flatMap write) { temp with value_s := done } { temp with value_s := done ++ values.map read } := by
  induction values generalizing done with
  | nil =>
    rw [List.flatMap_nil, List.map_nil, List.append_nil]
    exact Reads.refl
  | cons value values ih =>
    have rest := ih (fun value mem => one value (List.mem_cons_of_mem _ mem)) (done ++ [read value])
    rw [List.append_assoc, List.singleton_append] at rest
    rw [List.flatMap_cons, List.map_cons]
    exact (one value List.mem_cons_self done).append rest rfl

/-- A nested message of size zero ends at its size, which is read as a tag. -/
theorem reads_proto {template : List Data} (numbered : Numbered temp) (type : temp.type = .proto) (blank : temp.proto_value = none)
    (found : _proto_data_mgr temp.proto_type = some template) :
    Reads pb _proto_data_mgr (pb.varint (makeTag temp.index .length_delimited) ++ pb.varint 0) temp
      { temp with proto_value := some template } := by
  obtain ⟨-, small, -, wire⟩ := makeTag_eq numbered .length_delimited
  intro before after tail later legitimate depth fuel absent enough
  have pos := List.length_pos_of_ne_nil (varint_ne_nil pb (n := makeTag temp.index .length_delimited) (by omega))
  have some := varint_ne_nil pb (n := 0) (by decide)
  have pos' := List.length_pos_of_ne_nil some
  simp only [List.length_append] at enough
  obtain ⟨fuel, rfl⟩ : ∃ k, fuel = k + 2 := ⟨fuel - 2, by omega⟩
  have message : mutableProtoData _proto_data_mgr temp = Option.some template := by
    rw [mutableProtoData, blank, found]
    rfl
  have nested : mergePartialFromCodedStream pb _proto_data_mgr (fuel + 1) ⟨pb.varint 0 ++ tail, later, legitimate, depth⟩ template =
      Option.some (true, ⟨tail, later, legitimate, depth⟩, template) := by
    have more : pb.varint 0 ++ tail ≠ [] := fun none => some (List.append_eq_nil_iff.1 none).1
    rw [mergePartialFromCodedStream, readTag, if_neg more, pb.readVarint_varint _ _ (by decide)]
    rfl
  refine ⟨fuel + 1, by omega, ?_⟩
  rw [List.append_assoc, merge_tag numbered _ absent, readField]
  simp only [type, wire, if_true, message, Option.bind_some, nested, Option.map_some]
  by_cases last : tail = []
  · subst last
    rfl
  · rw [if_neg last]
    rfl

/-- The bytes of a field of the table. -/
theorem reads_field (schema : Schema _proto_data_mgr) (conforms : Conforms _proto_data_mgr temp tree) (numbered : Numbered temp)
    (blank : Blank temp) (flat : Flat tree) (short : (fieldBytes pb tree).length < 2 ^ 31) :
    Reads pb _proto_data_mgr (fieldBytes pb tree) temp (decoded tree) := by
  obtain ⟨index, type, value, value_s, proto_type, proto_value, proto_value_s⟩ := temp
  obtain ⟨rfl, rfl, rfl, rfl⟩ := blank
  cases conforms with
  | int32 same n low high =>
    obtain rfl : type = .int32 := same
    have read := @reads_writeInt pb _proto_data_mgr ⟨index, .int32, [], [], proto_type, none, []⟩ _ _ numbered n fun _ _ _ => rfl
    rw [int32Text_emod low high] at read
    simp only [fieldBytes, decoded, stringToInt32_intText]
    rw [show max (-2 ^ 31) (min (2 ^ 31 - 1) n) = n by omega]
    exact read
  | int64 same n low high =>
    obtain rfl : type = .int64 := same
    have read := @reads_writeInt pb _proto_data_mgr ⟨index, .int64, [], [], proto_type, none, []⟩ _ _ numbered n fun _ _ _ => rfl
    rw [int64Text_emod low high] at read
    simp only [fieldBytes, decoded, stringToInt64_intText low high]
    exact read
  | string same value =>
    obtain rfl : type = .string := same
    obtain ⟨-, -, -, wire⟩ := makeTag_eq numbered .length_delimited
    simp only [fieldBytes, writeString, List.length_append] at short
    refine reads_writeString (fun text => ⟨index, .string, text, [], proto_type, none, []⟩) numbered value (by omega) ?_
    intro merge input tail string later legitimate depth
    simp only [readField, wire, if_true, string]
  | bool same b =>
    obtain rfl : type = .bool := same
    exact Reads.refl
  | int32_s same ns range =>
    obtain rfl : type = .int32_s := same
    have each := @reads_repeated pb _proto_data_mgr ⟨index, .int32_s, [], [], proto_type, none, []⟩
      (fun value => writeInt pb index (stringToInt32 value)) id (ns.map intText) ?_ []
    · rw [List.map_id, List.nil_append] at each
      exact each
    · intro value mem done
      obtain ⟨n, listed, rfl⟩ := List.mem_map.1 mem
      obtain ⟨low, high⟩ := range n listed
      have read := @reads_writeInt pb _proto_data_mgr ⟨index, .int32_s, [], done, proto_type, none, []⟩ _ _ numbered n fun _ _ _ => rfl
      rw [int32Text_emod low high] at read
      rw [stringToInt32_intText, show max (-2 ^ 31) (min (2 ^ 31 - 1) n) = n by omega]
      exact read
  | int64_s same ns range =>
    obtain rfl : type = .int64_s := same
    have each := @reads_repeated pb _proto_data_mgr ⟨index, .int64_s, [], [], proto_type, none, []⟩
      (fun value => writeInt pb index (stringToInt32 value)) (fun value => intText (stringToInt32 value)) (ns.map intText) ?_ []
    · rw [List.nil_append] at each
      exact each
    · intro value mem done
      obtain ⟨n, listed, rfl⟩ := List.mem_map.1 mem
      obtain ⟨low, high⟩ := stringToInt32_bounds n
      have read := @reads_writeInt pb _proto_data_mgr ⟨index, .int64_s, [], done, proto_type, none, []⟩ _ _ numbered
        (stringToInt32 (intText n)) fun _ _ _ => rfl
      rw [int64Text_emod (by omega) (by omega)] at read
      exact read
  | string_s same values =>
    obtain rfl : type = .string_s := same
    obtain ⟨-, -, -, wire⟩ := makeTag_eq numbered .length_delimited
    have each := @reads_repeated pb _proto_data_mgr ⟨index, .string_s, [], [], proto_type, none, []⟩ (writeString pb index) id values ?_ []
    · rw [List.map_id, List.nil_append] at each
      exact each
    · intro value mem done
      have part := (List.sublist_flatten_of_mem (List.mem_map.2 ⟨value, mem, rfl⟩ : writeString pb index value ∈ _)).length_le
      have length : value.length < 2 ^ 31 := by
        change (List.flatMap (writeString pb index) values).length < _ at short
        rw [List.flatMap_def] at short
        simp only [writeString, List.length_append] at part
        omega
      have same : Numbered ⟨index, .string_s, [], done, proto_type, none, []⟩ := numbered
      refine reads_writeString (fun text => ⟨index, .string_s, [], done ++ [text], proto_type, none, []⟩) same value length ?_
      intro merge input tail string later legitimate depth
      simp only [readField, wire, if_true, string]
  | bool_s same bs =>
    obtain rfl : type = .bool_s := same
    exact Reads.refl
  | proto same found all =>
    obtain rfl : type = .proto := same
    have empty := flat rfl _ rfl
    rw [eq_of_emptyField all (schema.blank found) empty]
    exact reads_proto numbered rfl rfl found
  | proto_s same messages =>
    obtain rfl : type = .proto_s := same
    exact Reads.refl

/-- The parser takes the fields in the order of the table. -/
theorem merge_fields {template message : List Data} (schema : Schema _proto_data_mgr)
    (conforms : List.Forall₂ (Conforms _proto_data_mgr) template message) (numbered : ∀ temp ∈ template, Numbered temp)
    (blank : ∀ temp ∈ template, Blank temp) (flat : ∀ temp ∈ message, Flat temp)
    (short : (message.flatMap (fieldBytes pb)).length < 2 ^ 31) (before : List Data)
    (distinct : ((before ++ template).map Data.index).Nodup) (later : List UInt8) (legitimate : Bool) (depth fuel : Nat)
    (enough : (message.flatMap (fieldBytes pb)).length < fuel) :
    mergePartialFromCodedStream pb _proto_data_mgr fuel ⟨message.flatMap (fieldBytes pb), later, legitimate, depth⟩ (before ++ template) =
      some (true, ⟨[], later, true, depth⟩, before ++ message.map decoded) := by
  induction conforms generalizing before fuel with
  | nil =>
    obtain ⟨fuel, rfl⟩ : ∃ k, fuel = k + 1 := ⟨fuel - 1, by omega⟩
    rfl
  | @cons temp tree template message first rest ih =>
    rw [List.flatMap_cons] at short enough ⊢
    have absent : temp.index ∉ before.map Data.index := by
      rw [List.map_append, List.map_cons, List.nodup_append] at distinct
      intro mem
      exact distinct.2.2 _ mem _ List.mem_cons_self rfl
    have index : (decoded tree).index = temp.index := by
      rw [← first.index, decoded]
      split <;> rfl
    rw [List.length_append] at short
    obtain ⟨fuel', enough', same⟩ := reads_field schema first (numbered temp List.mem_cons_self) (blank temp List.mem_cons_self)
      (flat tree List.mem_cons_self) (by omega) before template (message.flatMap (fieldBytes pb)) later legitimate depth fuel absent enough
    have after := ih (fun temp mem => numbered temp (List.mem_cons_of_mem _ mem)) (fun temp mem => blank temp (List.mem_cons_of_mem _ mem))
      (fun temp mem => flat temp (List.mem_cons_of_mem _ mem)) (by omega) (before ++ [decoded tree]) ?_ fuel' enough'
    · rw [same]
      rw [List.append_assoc, List.append_assoc] at after
      exact after
    · rw [List.append_assoc, List.map_append, List.map_append, List.map_singleton, index]
      rw [List.map_append, List.map_cons] at distinct
      exact distinct

/-- **What comes back of a message**: a tree of the table whose nested messages write nothing is serialised, and the parser gets the
same tree from the bytes exactly when every field is kept. -/
theorem round_trip {name : String} {template message : List Data} (schema : Schema _proto_data_mgr)
    (found : _proto_data_mgr name = some template) (conforms : List.Forall₂ (Conforms _proto_data_mgr) template message)
    (flat : ∀ temp ∈ message, Flat temp) (memory : Nat → UInt8) :
    ∃ output, (∀ fuel, serializeWithCachedSizes pb _proto_data_mgr (fuel + 2) message ⟨memory, 0⟩ = some output) ∧
      (output.bytes.length < 2 ^ 31 →
        (parseFromArray pb _proto_data_mgr output.bytes template = some (true, message) ↔ ∀ temp ∈ message, Kept temp)) := by
  refine ⟨_, fun fuel => serialize_flat conforms (schema.blank found) flat fuel _, fun short => ?_⟩
  rw [CodedOutputStream.bytes_write] at short ⊢
  have fields := merge_fields schema conforms (schema.numbers found) (schema.blank found) flat short [] (schema.distinct found) [] false 0
    _ (Nat.lt_succ_self _)
  rw [List.nil_append, List.nil_append] at fields
  rw [parseFromArray, fields]
  simp only [Option.map_some, Bool.and_self, Option.some.injEq, Prod.mk.injEq, true_and]
  exact map_decoded_eq_iff conforms

end Reading

/-- The wire format, for messages of which no field is skipped. -/
def base128 : Protobuf where
  varint n := encodeVarint 9 n
  readVarint := decodeVarint 9
  readString s :=
    match decodeVarint 9 s with
    | (some length, rest) =>
      if length % 2 ^ 32 ≤ rest.length then (true, rest.take (length % 2 ^ 32), rest.drop (length % 2 ^ 32)) else (false, rest, [])
    | (none, rest) => (false, [], rest)
  skipField _ input := (false, input)
  recursionLimit := 64
  direct _ _ := true
  readVarint_varint n tail small := decodeVarint_encodeVarint (Nat.lt_of_lt_of_le small (by decide)) tail
  readString_varint s tail short := by
    have room : s.length ≤ (s ++ tail).length := by simp
    rw [decodeVarint_encodeVarint (Nat.lt_of_lt_of_le short (by decide))]
    simp only [Nat.mod_eq_of_lt (Nat.lt_of_lt_of_le short (by decide : 2 ^ 31 ≤ 2 ^ 32)), if_pos room, List.take_left, List.drop_left]

/-- A number, names and a nested message. -/
def roleTemplate : List Data :=
  [⟨1, .int32, [], [], "", none, []⟩, ⟨2, .string_s, [], [], "", none, []⟩, ⟨3, .proto, [], [], "bag", none, []⟩]

/-- Numbers. -/
def bagTemplate : List Data := [⟨1, .int32_s, [], [], "", none, []⟩]

def roleTable (name : String) : Option (List Data) :=
  if name = "role" then some roleTemplate else if name = "bag" then some bagTemplate else none

theorem roleTable_schema : Schema roleTable := by
  have only : ∀ {name template}, roleTable name = some template → template = roleTemplate ∨ template = bagTemplate := by
    intro name template found
    rw [roleTable] at found
    split_ifs at found
    · exact .inl (Option.some.inj found).symm
    · exact .inr (Option.some.inj found).symm
  refine ⟨fun found => ?_, fun found => ?_, fun found => ?_⟩
  · rcases only found with rfl | rfl <;> decide
  · rcases only found with rfl | rfl
    · simp [roleTemplate]
    · simp [bagTemplate]
  · intro temp mem
    rcases only found with rfl | rfl
    · simp only [roleTemplate, List.mem_cons, List.not_mem_nil, or_false] at mem
      rcases mem with rfl | rfl | rfl <;> exact ⟨rfl, rfl, rfl, rfl⟩
    · obtain rfl := List.mem_singleton.1 mem
      exact ⟨rfl, rfl, rfl, rfl⟩

/-- The number -5, two names and an empty nested message. -/
def role : List Data :=
  [⟨1, .int32, intText (-5), [], "", none, []⟩, ⟨2, .string_s, [], [[97], []], "", none, []⟩,
    ⟨3, .proto, [], [], "bag", some bagTemplate, []⟩]

theorem role_conforms : List.Forall₂ (Conforms roleTable) roleTemplate role := by
  refine .cons (.int32 rfl (-5) (by decide) (by decide)) (.cons (.string_s rfl [[97], []]) (.cons ?_ .nil))
  have found : roleTable "bag" = some bagTemplate := rfl
  exact .proto rfl found (.cons (.int32_s rfl [] nofun) .nil)

theorem role_flat : ∀ temp ∈ role, Flat temp ∧ Kept temp := by
  intro temp mem
  simp only [role, List.mem_cons, List.not_mem_nil, or_false] at mem
  rcases mem with rfl | rfl | rfl
  · exact ⟨nofun, trivial⟩
  · exact ⟨nofun, trivial⟩
  · refine ⟨?_, trivial⟩
    rintro - message same field mem
    obtain rfl := Option.some.inj same
    obtain rfl := List.mem_singleton.1 mem
    exact ⟨.inl rfl, rfl, rfl⟩

theorem round_trip_role : ∃ output, serializeWithCachedSizes base128 roleTable 2 role ⟨fun _ => 0, 0⟩ = some output ∧
    output.bytes.length = 18 ∧ parseFromArray base128 roleTable output.bytes roleTemplate = some (true, role) := by
  have found : roleTable "role" = some roleTemplate := rfl
  obtain ⟨output, written, back⟩ := @round_trip base128 _ _ _ _ roleTable_schema found role_conforms
    (fun temp mem => (role_flat temp mem).1) fun _ => 0
  have length : (serializeWithCachedSizes base128 roleTable 2 role ⟨fun _ => 0, 0⟩).map (·.bytes.length) = some 18 := by decide +kernel
  rw [written 0] at length
  have length : output.bytes.length = 18 := Option.some.inj length
  exact ⟨output, written 0, length, (back (by omega)).2 fun temp mem => (role_flat temp mem).2⟩

/-- A message with one boolean. -/
def flagTable (name : String) : Option (List Data) :=
  if name = "flag" then some [⟨1, .bool, [], [], "", none, []⟩] else none

/-- A table with one message. -/
theorem Schema.single {message : String} {template : List Data} (distinct : (template.map Data.index).Nodup)
    (numbers : ∀ temp ∈ template, 1 ≤ temp.index ∧ temp.index < 2 ^ 29) (blank : ∀ temp ∈ template, Blank temp) :
    Schema fun name => if name = message then some template else none := by
  have only : ∀ {name template'}, (if name = message then some template else none) = some template' → template' = template :=
    fun found => (Option.some.inj (Option.ite_none_right_eq_some.1 found).2).symm
  refine ⟨fun found => ?_, fun found => ?_, fun found => ?_⟩ <;> rw [only found]
  · exact distinct
  · exact numbers
  · exact blank

theorem flagTable_schema : Schema flagTable := by
  refine .single (by decide) (by simp) fun temp mem => ?_
  obtain rfl := List.mem_singleton.1 mem
  exact ⟨rfl, rfl, rfl, rfl⟩

/-- A boolean is not written. -/
theorem bool_lost : Schema flagTable ∧ flagTable "flag" = some [⟨1, .bool, [], [], "", none, []⟩] ∧
    List.Forall₂ (Conforms flagTable) [⟨1, .bool, [], [], "", none, []⟩] [⟨1, .bool, [49], [], "", none, []⟩] ∧
    ∃ output, serializeWithCachedSizes base128 flagTable 1 [⟨1, .bool, [49], [], "", none, []⟩] ⟨fun _ => 0, 0⟩ = some output ∧
      output.bytes = [] ∧
      parseFromArray base128 flagTable output.bytes [⟨1, .bool, [], [], "", none, []⟩] ≠
        some (true, [⟨1, .bool, [49], [], "", none, []⟩]) := by
  refine ⟨flagTable_schema, rfl, .cons (.bool rfl true) .nil, _, rfl, rfl, ?_⟩
  intro same
  have value : [] = [(49 : UInt8)] := congrArg (fun result => (result.map fun pair => pair.2.flatMap Data.value).getD []) same
  cases value

end GameServer.Proto

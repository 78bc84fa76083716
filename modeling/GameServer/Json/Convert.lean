import GameServer.Json.Value

/-!
# Messages as JSON values

`JsonConvertImpl`. Both directions take pairs from two stacks that are pushed and popped together, a message and a JSON
value: here they are one stack, with the side that is only read as the task and the side that is written as a place
(`work`). A message has, for each field of its descriptor, the list of its elements; an optional or a required field is
set if there is one. The reflection is as documented: a getter of another type than the field's is `none`.
-/

namespace GameServer.Json

open GameServer.Lib

inductive Label where
  | optional
  | required
  | repeated
  deriving DecidableEq

/-- `other` are the types that the switches have no case for. -/
inductive FieldType where
  | double
  | float
  | int32
  | int64
  | uint32
  | uint64
  | string
  | message (descriptor : Nat)
  | other
  deriving DecidableEq

structure FieldDescriptor where
  name : String
  label : Label
  type : FieldType

/-- The descriptors of the message types. -/
structure Schema where
  fields : Nat → List FieldDescriptor
  names : ∀ d, ((fields d).map FieldDescriptor.name).Nodup

inductive Scalar (F : Floats) where
  | double (x : F.Double)
  | float (x : F.Float)
  | int32 (n : Int32)
  | int64 (n : Int64)
  | uint32 (n : UInt32)
  | uint64 (n : UInt64)
  | string (s : String)
  | other (n : Nat)

mutual

inductive Message (F : Floats) where
  | mk (descriptor : Nat) (rows : List (List (Datum F)))

inductive Datum (F : Floats) where
  | scalar (x : Scalar F)
  | message (m : Message F)

end

variable {F : Floats} {S : Schema}

namespace Message

def descriptor : Message F → Nat
  | mk d _ => d

def rows : Message F → List (List (Datum F))
  | mk _ rows => rows

/-- The elements of the field `i`. -/
def row (m : Message F) (i : Nat) : List (Datum F) := m.rows[i]?.getD []

/-- The default message. -/
def blank (S : Schema) (d : Nat) : Message F := mk d (List.replicate (S.fields d).length [])

/-- `AddInt32`, `AddMessage` and so on, for several elements. -/
def add (i : Nat) (xs : List (Datum F)) (m : Message F) : Message F := mk m.descriptor (m.rows.modify i (· ++ xs))

/-- `SetInt32` and so on. -/
def set (i : Nat) (x : Datum F) (m : Message F) : Message F := mk m.descriptor (m.rows.set i [x])

/-- `MutableMessage` makes the message if the field is not set. -/
def mutable (m : Message F) (i : Nat) (sub : Message F) : Message F := if m.row i = [] then m.add i [.message sub] else m

def get (m : Message F) (hop : Nat × Nat) : Option (Message F) :=
  match (m.row hop.1)[hop.2]? with
  | some (.message sub) => some sub
  | _ => none

def put (m : Message F) (hop : Nat × Nat) (sub : Message F) : Message F :=
  mk m.descriptor (m.rows.modify hop.1 (·.set hop.2 (.message sub)))

@[simp] theorem rows_mk (d : Nat) (rows : List (List (Datum F))) : (mk d rows).rows = rows := rfl

@[simp] theorem descriptor_mk (d : Nat) (rows : List (List (Datum F))) : (mk d rows).descriptor = d := rfl

@[simp] theorem descriptor_blank (d : Nat) : (blank S d : Message F).descriptor = d := rfl

@[simp] theorem rows_add (i : Nat) (xs : List (Datum F)) (m : Message F) : (m.add i xs).rows = m.rows.modify i (· ++ xs) := rfl

@[simp] theorem rows_set (i : Nat) (x : Datum F) (m : Message F) : (m.set i x).rows = m.rows.set i [x] := rfl

@[simp] theorem rows_put (m : Message F) (hop : Nat × Nat) (sub : Message F) :
    (m.put hop sub).rows = m.rows.modify hop.1 (·.set hop.2 (.message sub)) := rfl

@[simp] theorem descriptor_add (i : Nat) (xs : List (Datum F)) (m : Message F) : (m.add i xs).descriptor = m.descriptor := rfl

@[simp] theorem descriptor_set (i : Nat) (x : Datum F) (m : Message F) : (m.set i x).descriptor = m.descriptor := rfl

@[simp] theorem descriptor_put (m : Message F) (hop : Nat × Nat) (sub : Message F) :
    (m.put hop sub).descriptor = m.descriptor := rfl

/-- A message is its descriptor and its rows. -/
theorem ext : ∀ {m n : Message F}, m.descriptor = n.descriptor → m.rows = n.rows → m = n
  | mk _ _, mk _ _, rfl, rfl => rfl

theorem get_eq_some {m : Message F} {hop : Nat × Nat} {sub : Message F} :
    m.get hop = some sub ↔ (m.row hop.1)[hop.2]? = some (.message sub) := by
  unfold get
  split
  · next found => rw [found]; simp
  · next none => exact iff_of_false (by simp) (none sub)

theorem inside_of_get {m : Message F} {hop : Nat × Nat} {sub : Message F} (child : m.get hop = some sub) :
    hop.1 < m.rows.length ∧ hop.2 < (m.row hop.1).length := by
  have inside := (List.getElem?_eq_some_iff.1 (get_eq_some.1 child)).1
  refine ⟨?_, inside⟩
  by_contra outside
  rw [row, List.getElem?_eq_none (by omega)] at inside
  exact absurd inside (by simp)

theorem row_put {m : Message F} {hop : Nat × Nat} (u : Message F) (inside : hop.1 < m.rows.length) :
    (m.put hop u).row hop.1 = (m.row hop.1).set hop.2 (.message u) := by
  simp [row, inside]

/-- The messages inside a message. -/
def places (F : Floats) : Places (Message F) (Nat × Nat) where
  get := get
  put := put
  get_put := by
    intro m hop s u child
    obtain ⟨in_rows, in_row⟩ := inside_of_get child
    rw [get_eq_some, row_put u in_rows]
    simp [in_row]
  put_put := by
    intro m hop s u v child
    refine ext rfl ?_
    simp [List.modify_modify_eq, Function.comp_def]

end Message

namespace JsonConvertImpl

/-! ### Serialising -/

/-- The switch on the type of a field, for the element `x` and the reference `val`. -/
def writeValue (type : FieldType) (x : Datum F) (val : Value F) : Option (Value F × List (Message F × List Hop)) :=
  match type, x with
  | .message _, .message m => some (val, [(m, [])])
  | .double, .scalar (.double x) => some (.real x, [])
  | .float, .scalar (.float x) => some (.real (F.toDouble x), [])
  | .int32, .scalar (.int32 n) => some (.int n.toInt64, [])
  | .int64, .scalar (.int64 n) => some (.int n, [])
  | .uint32, .scalar (.uint32 n) => some (.uint n.toUInt64, [])
  | .uint64, .scalar (.uint64 n) => some (.uint n, [])
  | .string, .scalar (.string s) => some (.string s, [])
  | .other, _ => some (val, [])
  | _, _ => none

/-- `Json::Value& val = (val1[j])` and the switch. -/
def writeElement (type : FieldType) (x : Datum F × Nat) (val1 : Value F) : Option (Value F × List (Message F × List Hop)) :=
  val1.subscript (.index x.2) (writeValue type x.1)

def writeField (m : Message F) (f : FieldDescriptor × Nat) (jsonValue : Value F) : Option (Value F × List (Message F × List Hop)) :=
  match f.1.label with
  | .repeated => jsonValue.subscript (.key f.1.name) (inTurn (writeElement f.1.type) (m.row f.2).zipIdx)
  | .optional | .required =>
    match m.row f.2 with
    | [] => some (jsonValue, [])
    | x :: _ => jsonValue.subscript (.key f.1.name) (writeValue f.1.type x)

/-- One message of `SerializeProtoBuf`. -/
def write (S : Schema) (m : Message F) (jsonValue : Value F) : Option (Value F × List (Message F × List Hop)) :=
  inTurn (writeField m) (S.fields m.descriptor).zipIdx jsonValue

/-- The loop of `SerializeProtoBuf`. -/
def SerializeProtoBuf (S : Schema) :
    Value F × List (Message F × List Hop) → Option (Value F × List (Message F × List Hop)) :=
  work (Value.places F) (write S)

/-! ### Deserialising -/

/-- The cases of the switch for the scalar types: nothing is read where the test of the value fails. -/
def readScalar (type : FieldType) (val : Value F) : Option (Scalar F) :=
  match type with
  | .double => if val.isNumeric then some (.double val.asDouble) else none
  | .float => if val.isNumeric then some (.float val.asFloat) else none
  | .int32 => if val.isInt then some (.int32 val.asInt) else none
  | .int64 => if val.isInt64 then some (.int64 val.asInt64) else none
  | .uint32 => if val.isUInt then some (.uint32 val.asUInt) else none
  | .uint64 => if val.isUInt64 then some (.uint64 val.asUInt64) else none
  | .string => if val.isString then some (.string val.asString) else none
  | .message _ | .other => none

/-- The switch of a repeated field. -/
def addValue (S : Schema) (i : Nat) (type : FieldType) (val : Value F) (m : Message F) :
    Message F × List (Value F × List (Nat × Nat)) :=
  match type with
  | .message d => (m.add i [.message (.blank S d)], [(val, [(i, (m.row i).length)])])
  | _ =>
    match readScalar type val with
    | some x => (m.add i [.scalar x], [])
    | none => (m, [])

/-- The switch of an optional or a required field. -/
def setValue (S : Schema) (i : Nat) (type : FieldType) (val : Value F) (m : Message F) :
    Message F × List (Value F × List (Nat × Nat)) :=
  match type with
  | .message d => (m.mutable i (.blank S d), [(val, [(i, 0)])])
  | _ =>
    match readScalar type val with
    | some x => (m.set i (.scalar x), [])
    | none => (m, [])

/-- `Json::Value& val = (val1[j])`, below the size of `val1`, and the switch. -/
def readElement (S : Schema) (i : Nat) (type : FieldType) (val1 : Value F) (j : Nat) (m : Message F) :
    Option (Message F × List (Value F × List (Nat × Nat))) := do
  let val ← val1.get (.index j)
  some (addValue S i type val m)

def readField (S : Schema) (jsonValue : Value F) (f : FieldDescriptor × Nat) (m : Message F) :
    Option (Message F × List (Value F × List (Nat × Nat))) :=
  if jsonValue.isObject && jsonValue.isMember f.1.name then do
    let val ← jsonValue.get (.key f.1.name)
    match f.1.label with
    | .repeated => inTurn (readElement S f.2 f.1.type val) (List.range val.size) m
    | .optional | .required => some (setValue S f.2 f.1.type val m)
  else some (m, [])

/-- One value of `DeserializeProtoBuf`. -/
def read (S : Schema) (jsonValue : Value F) (m : Message F) : Option (Message F × List (Value F × List (Nat × Nat))) :=
  inTurn (readField S jsonValue) (S.fields m.descriptor).zipIdx m

/-- The loop of `DeserializeProtoBuf`. -/
def DeserializeProtoBuf (S : Schema) :
    Message F × List (Value F × List (Nat × Nat)) → Option (Message F × List (Value F × List (Nat × Nat))) :=
  work (Message.places F) (read S)

end JsonConvertImpl

end GameServer.Json

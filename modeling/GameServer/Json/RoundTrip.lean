import GameServer.Json.Convert
import Mathlib.Data.List.Nodup
import Mathlib.Tactic.Choose

/-!
# What is serialised is read back

For a well-typed message `m` there is a JSON value that `SerializeProtoBuf` builds from `m` and `null`, and from which
`DeserializeProtoBuf` builds `m`, starting with the default message. The induction is on the nesting of `m`. For one
message both visits run over its fields, and a repeated field over its elements, in the same order, so that the loop
rule `inTurn_yields` applies to each of these four loops: the members, the elements and the rows are added at the end.
-/

namespace GameServer.Json

open GameServer.Lib

variable {F : Floats} {S : Schema}

def Scalar.type : Scalar F → FieldType
  | .double _ => .double
  | .float _ => .float
  | .int32 _ => .int32
  | .int64 _ => .int64
  | .uint32 _ => .uint32
  | .uint64 _ => .uint64
  | .string _ => .string
  | .other _ => .other

def Datum.type : Datum F → FieldType
  | .scalar x => x.type
  | .message m => .message m.descriptor

/-- The elements of a field are of its type, and an optional or a required field has one at most. -/
structure FieldDescriptor.Fits (f : FieldDescriptor) (row : List (Datum F)) : Prop where
  single : f.label ≠ .repeated → row.length ≤ 1
  typed : ∀ x ∈ row, x.type = f.type

instance decidableFits (f : FieldDescriptor) (row : List (Datum F)) : Decidable (f.Fits row) :=
  decidable_of_iff ((f.label ≠ .repeated → row.length ≤ 1) ∧ ∀ x ∈ row, x.type = f.type)
    ⟨fun ⟨single, typed⟩ => ⟨single, typed⟩, fun fits => ⟨fits.single, fits.typed⟩⟩

/-- The values of the message type `m.descriptor`. -/
inductive Schema.Typed (S : Schema) : Message F → Prop where
  | mk {d : Nat} {rows : List (List (Datum F))} : rows.length = (S.fields d).length →
      (∀ (i : Nat) (f : FieldDescriptor) row, (S.fields d)[i]? = some f → rows[i]? = some row → f.Fits row) →
      (∀ row ∈ rows, ∀ m, .message m ∈ row → S.Typed m) → S.Typed (.mk d rows)

theorem Schema.Typed.of_fits {d : Nat} {rows : List (List (Datum F))} (length : rows.length = (S.fields d).length)
    (fits : ∀ pair ∈ (S.fields d).zip rows, pair.1.Fits pair.2) (subs : ∀ row ∈ rows, ∀ m, .message m ∈ row → S.Typed m) :
    S.Typed (.mk d rows) := by
  refine .mk length ?_ subs
  intro i f row at_f at_row
  apply fits (f, row)
  apply List.mem_of_getElem? (i := i)
  simp [List.getElem?_zip_eq_some, at_f, at_row]

/-- All fields are of the types that the converter handles. -/
def Schema.Handled (S : Schema) : Prop := ∀ d, ∀ f ∈ S.fields d, f.type ≠ .other

theorem Schema.Typed.fits {m : Message F} {i : Nat} {f : FieldDescriptor} (typed : S.Typed m)
    (at_i : (S.fields m.descriptor)[i]? = some f) : m.row i ∈ m.rows ∧ f.Fits (m.row i) := by
  cases typed with
  | @mk d rows length fits _ =>
    have inside : i < rows.length := by rw [length]; exact (List.getElem?_eq_some_iff.1 at_i).1
    have found : rows[i]? = some rows[i] := List.getElem?_eq_getElem inside
    have row : (Message.mk d rows).row i = rows[i] := by simp [Message.row, found]
    rw [row]
    exact ⟨List.getElem_mem inside, fits i f _ at_i found⟩

namespace Message

variable {m : Message F} {i : Nat} {xs : List (Datum F)}

theorem row_add (inside : i < m.rows.length) : (m.add i xs).row i = m.row i ++ xs := by
  simp [row, inside]

theorem add_add (ys : List (Datum F)) : (m.add i xs).add i ys = m.add i (xs ++ ys) := by
  refine ext rfl ?_
  simp [List.modify_modify_eq, Function.comp_def]

theorem add_nil : m.add i [] = m := by
  refine ext rfl ?_
  simp only [rows_add, List.append_nil]
  exact List.modify_id ..

theorem extends_add (i : Nat) (xs : List (Datum F)) : Extends (places F) (add i xs) where
  get {m hop s} child := by
    obtain ⟨in_rows, in_row⟩ := inside_of_get child
    apply get_eq_some.2
    by_cases same : hop.1 = i
    · subst same
      rw [row_add in_rows, List.getElem?_append_left in_row]
      exact get_eq_some.1 child
    · have kept : (m.add i xs).row hop.1 = m.row hop.1 := by
        rw [row, rows_add, List.getElem?_modify_ne _ _ fun e => same e.symm]
        rfl
      rw [kept]
      exact get_eq_some.1 child
  put {m hop s} u child := by
    obtain ⟨in_rows, in_row⟩ := inside_of_get child
    refine ext rfl ?_
    show (m.rows.modify i _).modify hop.1 _ = (m.rows.modify hop.1 _).modify i _
    by_cases same : hop.1 = i
    · subst same
      apply List.ext_getElem?
      intro k
      simp only [List.getElem?_modify]
      split
      · next same =>
        subst same
        rw [row, List.getElem?_eq_getElem in_rows, Option.getD_some] at in_row
        simp [in_rows, List.set_append_left, in_row]
      · rfl
    · exact List.modify_modify_ne _ _ _ (fun e => same e.symm)

/-- A message that is added is found after the elements before it. -/
theorem get_add_last (s : Message F) (inside : i < m.rows.length) :
    (m.add i [.message s]).get (i, (m.row i).length) = some s := by
  rw [get_eq_some, row_add inside]
  simp

theorem put_add_last (s u : Message F) (inside : i < m.rows.length) :
    (m.add i [.message s]).put (i, (m.row i).length) u = m.add i [.message u] := by
  refine ext rfl ?_
  apply List.ext_getElem?
  intro k
  simp only [rows_put, rows_add, List.getElem?_modify]
  split
  · next same =>
    subst same
    simp [row, inside]
  · simp

theorem set_eq_add (x : Datum F) (unset : m.rows[i]? = some []) : m.set i x = m.add i [x] := by
  refine ext rfl ?_
  apply List.ext_getElem?
  intro k
  have inside : i < m.rows.length := (List.getElem?_eq_some_iff.1 unset).1
  simp only [rows_set, rows_add, List.getElem?_modify, List.getElem?_set]
  split
  · next same =>
    subst same
    have empty : m.rows[i] = [] := by rwa [List.getElem?_eq_getElem inside, Option.some_inj] at unset
    simp [inside, empty]
  · simp

end Message

namespace JsonConvertImpl

/-! ### One value -/

def encodeScalar : Scalar F → Value F
  | .double x => .real x
  | .float x => .real (F.toDouble x)
  | .int32 n => .int n.toInt64
  | .int64 n => .int n
  | .uint32 n => .uint n.toUInt64
  | .uint64 n => .uint n
  | .string s => .string s
  | .other _ => .null

/-- The value of an element, with `built` for a message. -/
def encode (built : Message F → Value F) : Datum F → Value F
  | .scalar x => encodeScalar x
  | .message m => built m

/-- An element, with the default message for a message. -/
def shallow (S : Schema) : Datum F → Datum F
  | .scalar x => .scalar x
  | .message m => .message (.blank S m.descriptor)

/-- The tests of the values let through what was serialised, and the conversions give it back. -/
theorem readScalar_encode (x : Scalar F) (handled : x.type ≠ .other) : readScalar x.type (encodeScalar x) = some x := by
  cases x with
  | double x => simp [Scalar.type, encodeScalar, readScalar, Value.isNumeric, Value.isDouble, Value.asDouble]
  | float x => simp [Scalar.type, encodeScalar, readScalar, Value.isNumeric, Value.isDouble, Value.asFloat, F.toFloat_toDouble]
  | int32 n =>
    have integer : (Value.int n.toInt64 : Value F).integer = some n.toInt := by simp [Value.integer]
    have inside : (Value.int n.toInt64 : Value F).isInt = true :=
      Value.isIn_of_integer integer n.le_toInt (by have := n.toInt_lt; unfold maxInt; omega)
    simp [Scalar.type, encodeScalar, readScalar, inside, Value.asInt, Value.asLargest, integer]
  | int64 n =>
    have integer : (Value.int n : Value F).integer = some n.toInt := rfl
    have inside : (Value.int n : Value F).isInt64 = true :=
      Value.isIn_of_integer integer n.le_toInt (by have := n.toInt_lt; unfold maxInt64; omega)
    simp [Scalar.type, encodeScalar, readScalar, inside, Value.asInt64, Value.asLargest, integer]
  | uint32 n =>
    have integer : (Value.uint n.toUInt64 : Value F).integer = some (n.toNat : Int) := by simp [Value.integer]
    have inside : (Value.uint n.toUInt64 : Value F).isUInt = true :=
      Value.isIn_of_integer integer (by omega) (by have := n.toNat_lt; unfold maxUInt; omega)
    simp [Scalar.type, encodeScalar, readScalar, inside, Value.asUInt, Value.asLargest, integer]
  | uint64 n =>
    have integer : (Value.uint n : Value F).integer = some (n.toNat : Int) := rfl
    have inside : (Value.uint n : Value F).isUInt64 = true :=
      Value.isIn_of_integer integer (by omega) (by have := n.toNat_lt; unfold maxUInt64; omega)
    simp [Scalar.type, encodeScalar, readScalar, inside, Value.asUInt64, Value.asLargest, integer]
  | string s => simp [Scalar.type, encodeScalar, readScalar, Value.isString, Value.asString]
  | other n => exact absurd rfl handled

section Field

variable {built : Message F → Value F} {row : List (Datum F)} {type : FieldType} {f : FieldDescriptor}

/-- What is known of the messages in a row: they are serialised and read back. -/
structure Built (S : Schema) (built : Message F → Value F) (m : Message F) : Prop where
  writes : Builds (Value.places F) (write S) m .null (built m)
  reads : Builds (Message.places F) (read S) (built m) (.blank S m.descriptor) m

theorem writeValue_yields (x : Datum F) (handled : x.type ≠ .other) (sub : ∀ m, .message m = x → Built S built m) :
    Yields (Value.places F) (write S) (writeValue x.type x .null) (encode (fun _ => .null) x) (encode built x) := by
  cases x with
  | message m => exact ⟨[(m, [])], rfl, .cons (P := Value.places F) rfl (sub m rfl).writes .nil⟩
  | scalar x =>
    refine ⟨[], ?_, .nil⟩
    cases x with
    | other n => exact absurd rfl handled
    | _ => rfl

/-- A repeated field is written as the array of its elements. -/
theorem writeElements_yields (typed : ∀ x ∈ row, x.type = type) (handled : type ≠ .other)
    (sub : ∀ m, .message m ∈ row → Built S built m) :
    Yields (Value.places F) (write S) (inTurn (writeElement type) row.zipIdx .null)
      (.ofElements (row.map (encode fun _ => .null))) (.ofElements (row.map (encode built))) := by
  let now (k : Nat) : Value F := .ofElements ((row.take k).map (encode fun _ => .null))
  let later (k : Nat) : Value F := .ofElements ((row.take k).map (encode built))
  have loop : YieldsBelow (Value.places F) (write S) (inTurn (writeElement type) row.zipIdx (now 0)) (now row.zipIdx.length)
      (later row.zipIdx.length) := by
    apply inTurn_yields now later rfl
    rintro k ⟨x, j⟩ pass
    obtain ⟨at_k, rfl⟩ : row[k]? = some x ∧ k = j := by simpa [List.getElem?_zipIdx] using pass
    have next : row.take (k + 1) = row.take k ++ [x] := by rw [List.take_add_one, at_k]; rfl
    have mem : x ∈ row := List.mem_of_getElem? at_k
    have inner := writeValue_yields x (by rwa [typed x mem]) fun m e => sub m (e ▸ mem)
    rw [typed x mem] at inner
    have inside : k < row.length := (List.getElem?_eq_some_iff.1 at_k).1
    have length : k = ((row.take k).map (encode (F := F) fun _ => .null)).length := by simp; omega
    refine ⟨_, Value.extends_addElement (encode built x), ?_, ?_⟩
    · have element := Value.subscript_addElement ((row.take k).map (encode fun _ => .null)) inner
      rw [← length] at element
      simp only [now, next, List.map_append, List.map_cons, List.map_nil]
      exact element
    · simp only [later, next, List.map_append, List.map_cons, List.map_nil]
      exact Value.addElement_ofElements _ _
  simp only [now, later, List.length_zipIdx, List.take_length] at loop
  obtain ⟨pushed, done, fills, -⟩ := loop
  exact ⟨pushed, done, fills⟩

/-- The value of the member for a field, if there is one. -/
def fieldValue (built : Message F → Value F) (f : FieldDescriptor) (row : List (Datum F)) : Option (Value F) :=
  match f.label with
  | .repeated => some (.ofElements (row.map (encode built)))
  | .optional | .required => row.head?.map (encode built)

/-- A field that is set or repeated is written as a new member. -/
theorem writeField_yields {m : Message F} {i : Nat} {before : List (String × Value F)} (fits : f.Fits (m.row i))
    (handled : f.type ≠ .other) (sub : ∀ n, .message n ∈ m.row i → Built S built n)
    (fresh : before.lookup f.name = none) :
    ∃ φ, Extends (Value.places F) φ ∧
      YieldsBelow (Value.places F) (write S) (writeField m (f, i) (.ofMembers before))
        (.ofMembers (before ++ ((fieldValue (fun _ => .null) f (m.row i)).map (f.name, ·)).toList)) (φ (.ofMembers before)) ∧
      ∀ members, φ (.ofMembers members) =
        .ofMembers (members ++ ((fieldValue built f (m.row i)).map (f.name, ·)).toList) := by
  have one : f.label ≠ .repeated → ∃ φ, Extends (Value.places F) φ ∧
      YieldsBelow (Value.places F) (write S) (writeField m (f, i) (.ofMembers before))
        (.ofMembers (before ++ (((m.row i).head?.map (encode fun _ => .null)).map (f.name, ·)).toList))
        (φ (.ofMembers before)) ∧
      ∀ members, φ (.ofMembers members) = .ofMembers (members ++ (((m.row i).head?.map (encode built)).map (f.name, ·)).toList) := by
    intro single
    have written : writeField m (f, i) (.ofMembers before) = (m.row i).head?.elim (some (.ofMembers before, []))
        fun x => (Value.ofMembers before).subscript (.key f.name) (writeValue f.type x) := by
      unfold writeField
      cases label : f.label with
      | repeated => exact absurd label single
      | optional => cases m.row i <;> rfl
      | required => cases m.row i <;> rfl
    rw [written]
    cases unset : m.row i with
    | nil => exact ⟨_, .id, by simpa using YieldsBelow.done _, by simp⟩
    | cons x rest =>
      have mem : x ∈ m.row i := by rw [unset]; exact List.mem_cons_self
      have inner := writeValue_yields x (by rwa [fits.typed x mem]) fun n e => sub n (e ▸ mem)
      rw [fits.typed x mem] at inner
      refine ⟨_, Value.extends_addMember f.name (encode built x), ?_, ?_⟩
      · exact Value.subscript_addMember fresh inner
      · exact fun members => Value.addMember_ofMembers members f.name _
  unfold fieldValue
  cases label : f.label with
  | repeated =>
    have inner := writeElements_yields fits.typed handled sub
    refine ⟨_, Value.extends_addMember f.name (.ofElements ((m.row i).map (encode built))), ?_, ?_⟩
    · rw [writeField, label]
      exact Value.subscript_addMember fresh inner
    · exact fun members => Value.addMember_ofMembers members f.name _
  | optional => exact one (by simp [label])
  | required => exact one (by simp [label])

/-- The members for the first `k` fields of `m`. -/
def members (S : Schema) (built : Message F → Value F) (m : Message F) (k : Nat) : List (String × Value F) :=
  ((S.fields m.descriptor).zipIdx.take k).filterMap fun f => (fieldValue built f.1 (m.row f.2)).map (f.1.name, ·)

theorem members_succ {m : Message F} {k : Nat} (at_k : (S.fields m.descriptor)[k]? = some f) :
    members S built m (k + 1) = members S built m k ++ ((fieldValue built f (m.row k)).map (f.name, ·)).toList := by
  have next : (S.fields m.descriptor).zipIdx.take (k + 1) = (S.fields m.descriptor).zipIdx.take k ++ [(f, k)] := by
    rw [List.take_add_one, List.getElem?_zipIdx, at_k]
    simp
  rw [members, next, List.filterMap_append]
  cases value : fieldValue built f (m.row k) with
  | none => simp [members, value]
  | some v => simp [members, value]

/-- The names of fields are distinct: the member of a field is its value, once it has been written. -/
theorem lookup_members {m : Message F} {i : Nat} (at_i : (S.fields m.descriptor)[i]? = some f) :
    ∀ k, k ≤ (S.fields m.descriptor).length →
      (members S built m k).lookup f.name = if i < k then fieldValue built f (m.row i) else none := by
  intro k
  induction k with
  | zero => exact fun _ => rfl
  | succ k ih =>
    intro le
    have at_k := List.getElem?_eq_getElem (show k < (S.fields m.descriptor).length by omega)
    rw [members_succ at_k, List.lookup_append, ih (by omega)]
    by_cases here : i = k
    · subst here
      obtain rfl : f = (S.fields m.descriptor)[i] := Option.some.inj (at_i.symm.trans at_k)
      cases value : fieldValue built (S.fields m.descriptor)[i] (m.row i) with
      | none => simp
      | some v => simp
    · have other : (f.name == (S.fields m.descriptor)[k].name) = false := by
        rw [beq_eq_false_iff_ne]
        intro same
        have i_lt := (List.getElem?_eq_some_iff.1 at_i).1
        have same' : ((S.fields m.descriptor).map FieldDescriptor.name)[i]? =
            ((S.fields m.descriptor).map FieldDescriptor.name)[k]? := by
          rw [List.getElem?_map, List.getElem?_map, at_i, at_k, Option.map_some, Option.map_some, same]
        exact here ((List.getElem?_inj (by simpa using i_lt) (S.names m.descriptor)).1 same')
      have none' : (((fieldValue built (S.fields m.descriptor)[k] (m.row k)).map
          ((S.fields m.descriptor)[k].name, ·)).toList).lookup f.name = none := by
        cases fieldValue built (S.fields m.descriptor)[k] (m.row k) with
        | none => rfl
        | some v => simp [List.lookup_cons, other]
      rw [none', Option.or_none]
      have : i < k ↔ i < k + 1 := by omega
      simp only [this]

/-- **One message is written** as the object of its members. -/
theorem write_builds {m : Message F} (typed : S.Typed m) (handled : S.Handled)
    (sub : ∀ row ∈ m.rows, ∀ n, .message n ∈ row → Built S built n) :
    Builds (Value.places F) (write S) m .null (.ofMembers (members S built m (S.fields m.descriptor).length)) := by
  have loop : YieldsBelow (Value.places F) (write S) (write S m (.ofMembers (members S (fun _ => .null) m 0)))
      (.ofMembers (members S (fun _ => .null) m (S.fields m.descriptor).zipIdx.length))
      (.ofMembers (members S built m (S.fields m.descriptor).zipIdx.length)) := by
    refine inTurn_yields (fun k => Value.ofMembers (members S (fun _ => .null) m k)) (fun k => .ofMembers (members S built m k))
      rfl ?_
    rintro k ⟨f, i⟩ pass
    obtain ⟨at_k, rfl⟩ : (S.fields m.descriptor)[k]? = some f ∧ k = i := by simpa [List.getElem?_zipIdx] using pass
    obtain ⟨in_row, fits⟩ := typed.fits at_k
    have fresh : (members S (fun _ => (.null : Value F)) m k).lookup f.name = none := by
      have inside := (List.getElem?_eq_some_iff.1 at_k).1
      rw [lookup_members at_k k (by omega)]
      simp
    obtain ⟨φ, extends_, yields, reached⟩ :=
      writeField_yields fits (handled _ f (List.mem_of_getElem? at_k)) (sub _ in_row) fresh
    refine ⟨φ, extends_, ?_, ?_⟩
    · simpa only [members_succ at_k] using yields
    · simpa only [members_succ at_k] using reached (members S built m k)
  rw [List.length_zipIdx] at loop
  exact loop.builds

/-! ### Reading -/

section Reading

variable {t : Message F} {i : Nat} {val : Value F}

theorem addValue_scalar (x : Scalar F) (read : readScalar x.type val = some x) :
    addValue S i x.type val t = (t.add i [.scalar x], []) := by
  cases x <;> simp only [Scalar.type] at read ⊢ <;> simp [addValue, read]

theorem setValue_scalar (x : Scalar F) (read : readScalar x.type val = some x) :
    setValue S i x.type val t = (t.set i (.scalar x), []) := by
  cases x <;> simp only [Scalar.type] at read ⊢ <;> simp [setValue, read]

/-- A message that is added is read at its place. -/
theorem message_yields {m : Message F} (inside : i < t.rows.length) (sub : Built S built m) :
    YieldsBelow (Message.places F) (read S)
      (some (t.add i [.message (.blank S m.descriptor)], [(built m, [(i, (t.row i).length)])]))
      (t.add i [.message (.blank S m.descriptor)]) (t.add i [.message m]) := by
  have place := Message.get_add_last (.blank S m.descriptor) inside
  refine ⟨_, rfl, ?_, by simp⟩
  refine .cons (w := built m) (p := [(i, (t.row i).length)]) (x := .blank S m.descriptor) (y := m) ?_ sub.reads ?_
  · show ((t.add i [.message (.blank S m.descriptor)]).get (i, (t.row i).length)).bind _ = _
    rw [place]
    rfl
  · rw [Places.putAt_cons place]
    show Fills _ _ [] ((t.add i [.message (.blank S m.descriptor)]).put (i, (t.row i).length) m) _
    rw [Message.put_add_last _ m inside]
    exact .nil

theorem addValue_yields (x : Datum F) (handled : x.type ≠ .other) (sub : ∀ m, .message m = x → Built S built m)
    (inside : i < t.rows.length) :
    YieldsBelow (Message.places F) (read S) (some (addValue S i x.type (encode built x) t)) (t.add i [shallow S x]) (t.add i [x]) := by
  cases x with
  | message m => exact message_yields inside (sub m rfl)
  | scalar x =>
    have added : addValue S i x.type (encodeScalar x) t = (t.add i [.scalar x], []) :=
      addValue_scalar x (readScalar_encode x handled)
    show YieldsBelow _ _ (some (addValue S i x.type (encodeScalar x) t)) _ _
    rw [added]
    exact .done _

theorem setValue_yields (x : Datum F) (handled : x.type ≠ .other) (sub : ∀ m, .message m = x → Built S built m)
    (unset : t.rows[i]? = some []) :
    YieldsBelow (Message.places F) (read S) (some (setValue S i x.type (encode built x) t)) (t.add i [shallow S x]) (t.add i [x]) := by
  have empty : t.row i = [] := by simp [Message.row, unset]
  cases x with
  | message m =>
    have yields := message_yields (List.getElem?_eq_some_iff.1 unset).1 (sub m rfl)
    have made : setValue S i (Datum.message m).type (built m) t =
        (t.add i [.message (.blank S m.descriptor)], [(built m, [(i, (t.row i).length)])]) := by
      simp [Datum.type, setValue, Message.mutable, empty]
    exact made ▸ yields
  | scalar x =>
    have set : setValue S i x.type (encodeScalar x) t = (t.set i (.scalar x), []) :=
      setValue_scalar x (readScalar_encode x handled)
    show YieldsBelow _ _ (some (setValue S i x.type (encodeScalar x) t)) _ _
    rw [set, Message.set_eq_add _ unset]
    exact .done _

/-- The elements of an array are read in their order. -/
theorem readElements_yields (typed : ∀ x ∈ row, x.type = type) (handled : type ≠ .other)
    (sub : ∀ m, .message m ∈ row → Built S built m) (inside : i < t.rows.length) :
    YieldsBelow (Message.places F) (read S)
      (inTurn (readElement S i type (.ofElements (row.map (encode built)))) (List.range row.length) t)
      (t.add i (row.map (shallow S))) (t.add i row) := by
  have loop : YieldsBelow (Message.places F) (read S)
      (inTurn (readElement S i type (.ofElements (row.map (encode built)))) (List.range row.length)
        (t.add i ((row.take 0).map (shallow S))))
      (t.add i ((row.take (List.range row.length).length).map (shallow S)))
      (t.add i (row.take (List.range row.length).length)) := by
    refine inTurn_yields (fun k => t.add i ((row.take k).map (shallow S))) (fun k => t.add i (row.take k)) rfl ?_
    intro k j pass
    obtain ⟨k_lt, rfl⟩ : k < row.length ∧ k = j := by simpa [List.getElem?_range', List.getElem?_eq_some_iff] using pass
    have mem : row[k] ∈ row := List.getElem_mem k_lt
    have next : row.take (k + 1) = row.take k ++ [row[k]] := (List.take_append_getElem k_lt).symm
    have yields := addValue_yields (S := S) (i := i) (t := t.add i ((row.take k).map (shallow S))) row[k]
      (by rwa [typed _ mem]) (fun m e => sub m (e ▸ mem)) (by simpa using inside)
    refine ⟨_, Message.extends_add i [row[k]], ?_, ?_⟩
    · have found : (Value.ofElements (row.map (encode built))).get (.index k) = some (encode built row[k]) := by
        rw [Value.get_ofElements, List.getElem?_map, List.getElem?_eq_getElem k_lt]
        rfl
      simp only [readElement, found, Option.bind_eq_bind, Option.bind_some]
      rw [typed _ mem, Message.add_add] at yields
      simpa only [next, List.map_append, List.map_cons, List.map_nil] using yields
    · rw [Message.add_add, next]
  simpa [Message.add_nil] using loop

/-- A field that has a member is read from it. -/
theorem readField_yields {json : Value F} (fits : f.Fits row) (handled : f.type ≠ .other)
    (sub : ∀ m, .message m ∈ row → Built S built m) (unset : t.rows[i]? = some [])
    (member : json.get (.key f.name) = fieldValue built f row)
    (object : (json.get (.key f.name)).isSome → json.isObject = true) :
    YieldsBelow (Message.places F) (read S) (readField S json (f, i) t) (t.add i (row.map (shallow S))) (t.add i row) := by
  have inside : i < t.rows.length := (List.getElem?_eq_some_iff.1 unset).1
  rw [member] at object
  have one : f.label ≠ .repeated → fieldValue built f row = row.head?.map (encode built) →
      readField S json (f, i) t =
        (match row.head?.map (encode built) with
          | some val => some (setValue S i f.type val t)
          | none => some (t, [])) →
      YieldsBelow (Message.places F) (read S) (readField S json (f, i) t) (t.add i (row.map (shallow S))) (t.add i row) := by
    intro single value reads
    have short := fits.single single
    match row, fits, short with
    | [], _, _ =>
      rw [reads, List.map_nil, Message.add_nil]
      exact .done t
    | [x], fits, _ =>
      have yields := setValue_yields x (by rw [fits.typed x (by simp)]; exact handled) (fun m e => sub m (by simp [e])) unset
      rw [fits.typed x (by simp)] at yields
      rw [reads]
      exact yields
  cases label : f.label with
  | repeated =>
    have value : fieldValue built f row = some (.ofElements (row.map (encode built))) := by simp [fieldValue, label]
    rw [value] at member object
    have reads : readField S json (f, i) t =
        inTurn (readElement S i f.type (.ofElements (row.map (encode built)))) (List.range row.length) t := by
      simp [readField, Value.isMember, object rfl, member, label, Value.size_ofElements]
    rw [reads]
    exact readElements_yields fits.typed handled sub inside
  | optional | required =>
    have value : fieldValue built f row = row.head?.map (encode built) := by simp [fieldValue, label]
    refine one (by simp [label]) value ?_
    rw [value] at member object
    cases set : row.head?.map (encode built) with
    | none => rw [set] at member; simp [readField, Value.isMember, member]
    | some val =>
      rw [set] at member object
      simp [readField, Value.isMember, member, object rfl, label]

/-- `m` with `g` at the elements of its first `k` fields, and the other fields unset. -/
def upTo (m : Message F) (g : Datum F → Datum F) (k : Nat) : Message F :=
  .mk m.descriptor ((m.rows.take k).map (·.map g) ++ List.replicate (m.rows.length - k) [])

theorem upTo_unset {m : Message F} (g : Datum F → Datum F) {k : Nat} (inside : k < m.rows.length) :
    (upTo m g k).rows[k]? = some [] := by
  have before : ((m.rows.take k).map (·.map g)).length = k := by
    rw [List.length_map, List.length_take]
    omega
  rw [upTo, Message.rows_mk, List.getElem?_append_right (by omega), before, List.getElem?_replicate, if_pos (by omega)]

theorem modify_middle {α : Type} (xs ys : List α) (y : α) (f : α → α) :
    (xs ++ y :: ys).modify xs.length f = xs ++ f y :: ys := by
  induction xs with
  | nil => rfl
  | cons x xs ih => simp [ih]

theorem upTo_succ {m : Message F} (g : Datum F → Datum F) {k : Nat} (inside : k < m.rows.length) :
    (upTo m g k).add k ((m.row k).map g) = upTo m g (k + 1) := by
  refine Message.ext rfl ?_
  have row : m.row k = m.rows[k] := by simp [Message.row, inside]
  have rest : m.rows.length - k = m.rows.length - (k + 1) + 1 := by omega
  have length : k = ((m.rows.take k).map (·.map g)).length := by simp; omega
  have next := modify_middle ((m.rows.take k).map (·.map g)) (List.replicate (m.rows.length - (k + 1)) []) [] (· ++ (m.row k).map g)
  rw [← length] at next
  simp only [upTo, Message.rows_add, Message.rows_mk, rest, List.replicate_succ]
  rw [next, row, List.take_succ_eq_append_getElem inside, List.map_append, List.append_assoc, List.nil_append]
  rfl

/-- **One message is read** from the object of its members. -/
theorem read_builds {m : Message F} (typed : S.Typed m) (handled : S.Handled)
    (sub : ∀ row ∈ m.rows, ∀ n, .message n ∈ row → Built S built n) :
    Builds (Message.places F) (read S) (.ofMembers (members S built m (S.fields m.descriptor).length)) (.blank S m.descriptor) m := by
  have length : m.rows.length = (S.fields m.descriptor).length := by
    cases typed with
    | mk length => exact length
  have blank : upTo m (shallow S) 0 = .blank S m.descriptor := by simp [upTo, Message.blank, length]
  have whole : upTo m id (S.fields m.descriptor).length = m := by
    refine Message.ext rfl ?_
    simp [upTo, ← length]
  have loop : YieldsBelow (Message.places F) (read S)
      (read S (.ofMembers (members S built m (S.fields m.descriptor).length)) (upTo m (shallow S) 0))
      (upTo m (shallow S) (S.fields m.descriptor).zipIdx.length) (upTo m id (S.fields m.descriptor).zipIdx.length) := by
    refine inTurn_yields (fun k => upTo m (shallow S) k) (fun k => upTo m id k) (by simp [upTo]) ?_
    rintro k ⟨f, i⟩ pass
    change (S.fields m.descriptor).zipIdx[k]? = _ at pass
    obtain ⟨at_k, rfl⟩ : (S.fields m.descriptor)[k]? = some f ∧ k = i := by simpa [List.getElem?_zipIdx] using pass
    obtain ⟨in_row, fits⟩ := typed.fits at_k
    have inside : k < m.rows.length := by rw [length]; exact (List.getElem?_eq_some_iff.1 at_k).1
    have member : (Value.ofMembers (members S built m (S.fields m.descriptor).length)).get (.key f.name) =
        fieldValue built f (m.row k) := by
      rw [Value.get_ofMembers, lookup_members at_k _ (Nat.le_refl _), if_pos (by omega)]
    refine ⟨_, Message.extends_add k (m.row k), ?_, ?_⟩
    · rw [← upTo_succ (shallow S) inside]
      refine readField_yields fits (handled _ f (List.mem_of_getElem? at_k)) (sub _ in_row) (upTo_unset _ inside) member ?_
      intro there
      rw [Value.get_ofMembers] at there
      exact Value.isObject_ofMembers there
    · have next := upTo_succ id inside
      rwa [List.map_id] at next
  rw [List.length_zipIdx, whole, blank] at loop
  exact loop.builds

end Reading

end Field

/-- Every message is serialised to a value from which it is read back. -/
theorem exists_built {m : Message F} (typed : S.Typed m) (handled : S.Handled) : ∃ json,
    Builds (Value.places F) (write S) m .null json ∧ Builds (Message.places F) (read S) json (.blank S m.descriptor) m := by
  induction typed with
  | @mk d rows length fits subs ih =>
    have each : ∀ n : Message F, (∃ row ∈ rows, .message n ∈ row) → ∃ json,
        Builds (Value.places F) (write S) n .null json ∧ Builds (Message.places F) (read S) json (.blank S n.descriptor) n :=
      fun n ⟨row, row_mem, mem⟩ => ih row row_mem n mem
    choose! built writes reads using each
    have subs' : ∀ row ∈ rows, ∀ n, .message n ∈ row → Built S built n :=
      fun row row_mem n mem => ⟨writes n ⟨row, row_mem, mem⟩, reads n ⟨row, row_mem, mem⟩⟩
    have typed : S.Typed (.mk d rows) := .mk length fits subs
    exact ⟨_, write_builds typed handled subs', read_builds typed handled subs'⟩

/-- **The round trip**: `SerializeProtoBuf` ends with a value from which `DeserializeProtoBuf` makes the message again,
with the fields set as they were and the elements in their order. -/
theorem message_round_trip {m : Message F} (typed : S.Typed m) (handled : S.Handled) : ∃ json,
    Settles (SerializeProtoBuf S) (.null, [(m, [])]) (json, []) ∧
      Settles (DeserializeProtoBuf S) (.blank S m.descriptor, [(json, [])]) (m, []) := by
  obtain ⟨json, writes, reads⟩ := exists_built typed handled
  exact ⟨json, writes.settles, reads.settles⟩

/-- A type that contains itself. -/
def nestedSchema : Schema where
  fields _ := [⟨"id", .required, .int32⟩, ⟨"sub", .optional, .message 0⟩, ⟨"subs", .repeated, .message 0⟩,
    ⟨"ratio", .optional, .float⟩, ⟨"gone", .optional, .double⟩, ⟨"names", .repeated, .string⟩, ⟨"empty", .repeated, .uint64⟩]
  names _ := by decide

/-- Floating point numbers that are small integers. -/
def integers : Floats := ⟨Int, Int, id, id, fun _ => rfl, id, id, some⟩

/-- No field is set. -/
def bare : Message integers := .mk 0 [[], [], [], [], [], [], []]

def full : Message integers := .mk 0 [[.scalar (.int32 (-7))], [.message bare], [], [.scalar (.float (3 : Int))], [], [], []]

def nested : Message integers :=
  .mk 0 [[.scalar (.int32 1)], [.message bare], [.message full, .message bare, .message full], [], [],
    [.scalar (.string "a"), .scalar (.string "")], []]

theorem message_round_trip_nested : ∃ json,
    Settles (SerializeProtoBuf nestedSchema) (.null, [(nested, [])]) (json, []) ∧
      Settles (DeserializeProtoBuf nestedSchema) (.blank nestedSchema 0, [(json, [])]) (nested, []) := by
  have handled : nestedSchema.Handled := by
    intro d
    show ∀ f ∈ nestedSchema.fields 0, f.type ≠ .other
    decide
  have typed_bare : nestedSchema.Typed bare := .of_fits rfl (by decide) (by simp)
  have typed_full : nestedSchema.Typed full := .of_fits rfl (by decide) (by simp [typed_bare])
  have typed : nestedSchema.Typed nested := .of_fits rfl (by decide) (by simp [typed_bare, typed_full])
  exact message_round_trip typed handled

end JsonConvertImpl

end GameServer.Json

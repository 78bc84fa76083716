import Mathlib.Data.List.TakeWhile
import GameServer.Proto.RoundTrip

/-!
# Fields that a message does not have

The label from which the parser skips a field is in the loop over the fields of the message and is not reached where none has the number
of the tag: the parser goes on with the bytes behind the tag, and takes them for tags. Where these are whole numbers, none of them zero
and none with a number of the message (`Quiet`), nothing comes of it, and the field is as good as skipped (`unknown_skipped`).

A nested message is read without its length, up to the end of the input, so this is said of fields that are not behind one, nor behind
a repeated message that can have one in it.
-/

namespace GameServer.Proto

/-- A field on the wire. -/
structure Field where
  number : Int
  type : WireType
  payload : List UInt8

section Wire

variable (pb : Protobuf)

def Field.bytes (f : Field) : List UInt8 := pb.varint (makeTag f.number f.type) ++ f.payload

/-- A field as the format has it; a group has fields. -/
inductive Field.WellFormed : Field → Prop where
  | varint {number : Int} {n : Nat} (numbered : 1 ≤ number ∧ number < 2 ^ 29) (small : n < 2 ^ 64) :
      WellFormed ⟨number, .varint, pb.varint n⟩
  | fixed64 {number : Int} {bytes : List UInt8} (numbered : 1 ≤ number ∧ number < 2 ^ 29) (length : bytes.length = 8) :
      WellFormed ⟨number, .fixed64, bytes⟩
  | length_delimited {number : Int} {s : List UInt8} (numbered : 1 ≤ number ∧ number < 2 ^ 29) (short : s.length < 2 ^ 31) :
      WellFormed ⟨number, .length_delimited, pb.varint s.length ++ s⟩
  | group {number : Int} {fields : List Field} (numbered : 1 ≤ number ∧ number < 2 ^ 29) (all : ∀ f ∈ fields, WellFormed f) :
      WellFormed ⟨number, .start_group, fields.flatMap (Field.bytes pb) ++ pb.varint (makeTag number .end_group)⟩
  | fixed32 {number : Int} {bytes : List UInt8} (numbered : 1 ≤ number ∧ number < 2 ^ 29) (length : bytes.length = 4) :
      WellFormed ⟨number, .fixed32, bytes⟩

/-- `SkipField` goes behind a field, or refuses it whatever comes behind (groups can be nested too deep), and knows nothing of the bytes
behind the limit. -/
structure SkipsFields : Prop where
  whole : ∀ f, Field.WellFormed pb f → ∀ legitimate depth,
    (∀ tail later, pb.skipField (makeTag f.number f.type) ⟨f.payload ++ tail, later, legitimate, depth⟩ =
      (true, ⟨tail, later, legitimate, depth⟩)) ∨
    (∀ tail later, (pb.skipField (makeTag f.number f.type) ⟨f.payload ++ tail, later, legitimate, depth⟩).1 = false)
  limit : ∀ tag rest later legitimate depth,
    pb.skipField tag ⟨rest, later, legitimate, depth⟩ =
      ((pb.skipField tag ⟨rest, [], legitimate, depth⟩).1, { (pb.skipField tag ⟨rest, [], legitimate, depth⟩).2 with
        later := (pb.skipField tag ⟨rest, [], legitimate, depth⟩).2.later ++ later })
  kept : ∀ tag input input', pb.skipField tag input = (true, input') → input'.later = input.later ∧
    (input'.legitimate_message_end_ = true → input.legitimate_message_end_ = true ∨ input'.rest = [])

/-- The message has a field with this number. -/
def Known (proto : List Data) (f : Field) : Prop := f.number ∈ proto.map Data.index

instance (proto : List Data) (f : Field) : Decidable (Known proto f) := inferInstanceAs (Decidable (f.number ∈ proto.map Data.index))

/-- The bytes are whole numbers of which none, taken for a tag, is zero or has a number of the message. -/
inductive Quiet (proto : List Data) : List UInt8 → Prop where
  | nil : Quiet proto []
  | cons {n : Nat} {bytes rest : List UInt8} (more : bytes ≠ []) (reads : ∀ tail, pb.readVarint (bytes ++ tail) = (some n, rest ++ tail))
      (nonzero : n % 2 ^ 32 ≠ 0) (unknown : getTagFieldNumber (n % 2 ^ 32) ∉ proto.map Data.index) (quiet : Quiet proto rest) :
      Quiet proto bytes

variable (_proto_data_mgr : String → Option (List Data))

/-- In the messages of this name there can be a nested message, at some depth. -/
inductive Deep : String → Prop where
  | here {name : String} {template : List Data} {temp : Data} (found : _proto_data_mgr name = some template) (mem : temp ∈ template)
      (type : temp.type = .proto) : Deep name
  | inside {name : String} {template : List Data} {temp : Data} (found : _proto_data_mgr name = some template) (mem : temp ∈ template)
      (type : temp.type = .proto_s) (deep : Deep temp.proto_type) : Deep name

/-- The field is a nested message, or a repeated one in which there can be a nested one. -/
def Nested (proto : List Data) (f : Field) : Prop :=
  f.type = .length_delimited ∧
    ∃ temp ∈ proto, temp.index = f.number ∧ (temp.type = .proto ∨ temp.type = .proto_s ∧ Deep _proto_data_mgr temp.proto_type)

/-- Whatever comes of the bytes, the message is not changed: up to their end, to a zero or to what is no number, none of them has a number
of the message. -/
inductive Harmless (proto : List Data) : List UInt8 → Prop where
  | nil : Harmless proto []
  | cons {n : Nat} {bytes rest : List UInt8} (more : bytes ≠ []) (reads : pb.readVarint bytes = (some n, rest)) (nonzero : n % 2 ^ 32 ≠ 0)
      (unknown : getTagFieldNumber (n % 2 ^ 32) ∉ proto.map Data.index) (harmless : Harmless proto rest) : Harmless proto bytes
  | stop {bytes : List UInt8} (stops : ∀ n, (pb.readVarint bytes).1 = some n → n % 2 ^ 32 = 0) : Harmless proto bytes

/-- The fields that the message does not have are quiet, those behind all others are harmless, and none is behind a nested message. -/
inductive Skippable (proto : List Data) : List Field → Prop where
  | complete {fields : List Field} (all : ∀ f ∈ fields, Known proto f) : Skippable proto fields
  | known {f : Field} {fields : List Field} (known : Known proto f) (flat : ¬ Nested _proto_data_mgr proto f)
      (rest : Skippable proto fields) : Skippable proto (f :: fields)
  | unknown {f : Field} {fields : List Field} (unknown : ¬ Known proto f) (quiet : Quiet pb proto f.payload)
      (rest : Skippable proto fields) : Skippable proto (f :: fields)
  | last {fields : List Field} (unknown : ∀ f ∈ fields, ¬ Known proto f) (harmless : Harmless pb proto (fields.flatMap (Field.bytes pb))) :
      Skippable proto fields

end Wire

section Parser

variable (pb : Protobuf) (_proto_data_mgr : String → Option (List Data))

/-- `MergePartialFromCodedStream` returns `result` and leaves `tree`. -/
def Merges (input : CodedInputStream) (proto : List Data) (result : Bool) (tree : List Data) : Prop :=
  ∃ fuel input', mergePartialFromCodedStream pb _proto_data_mgr fuel input proto = some (result, input', tree)

variable {pb _proto_data_mgr}

/-- What is read with some nested reader is read with one that returns more often. -/
theorem readField_mono {merge merge' : CodedInputStream → List Data → Option (Bool × CodedInputStream × List Data)}
    (more : ∀ input message r, merge input message = some r → merge' input message = some r) {tag : Nat} {input : CodedInputStream}
    {temp : Data} {r : Outcome × CodedInputStream × Data} (read : readField pb _proto_data_mgr merge tag input temp = some r) :
    readField pb _proto_data_mgr merge' tag input temp = some r := by
  unfold readField at read ⊢
  cases type : temp.type with
  | proto =>
    rw [type] at read
    dsimp only at read ⊢
    split_ifs at read ⊢
    · obtain ⟨message, set, read⟩ := Option.bind_eq_some_iff.1 read
      obtain ⟨r', merged, read⟩ := Option.map_eq_some_iff.1 read
      rw [set, Option.bind_some, more _ _ _ merged]
      exact congrArg some read
    · exact read
  | proto_s =>
    rw [type] at read
    rcases here : pb.readVarint input.rest with ⟨_ | length, rest⟩
    · simp only [here] at read ⊢
      exact read
    · simp only [here] at read ⊢
      split_ifs at read ⊢
      · exact read
      · obtain ⟨r', merged, read⟩ := Option.map_eq_some_iff.1 read
        rw [more _ _ _ merged]
        exact congrArg some read
      · exact read
  | _ =>
    rw [type] at read
    exact read

theorem merge_succ {fuel : Nat} {input : CodedInputStream} {proto : List Data} {r : Bool × CodedInputStream × List Data}
    (merged : mergePartialFromCodedStream pb _proto_data_mgr fuel input proto = some r) :
    mergePartialFromCodedStream pb _proto_data_mgr (fuel + 1) input proto = some r := by
  induction fuel generalizing input proto r with
  | zero => cases merged
  | succ fuel ih =>
    rw [mergePartialFromCodedStream] at merged ⊢
    dsimp only at merged ⊢
    split_ifs at merged ⊢
    · exact merged
    · split at merged
      · exact ih merged
      · obtain ⟨r', read, merged⟩ := Option.bind_eq_some_iff.1 merged
        rw [readField_mono (fun input message r merged => ih merged) read, Option.bind_some]
        obtain ⟨outcome, input', temp'⟩ := r'
        cases outcome with
        | next => exact ih merged
        | «return» result => exact merged

/-- More steps change nothing. -/
theorem merge_mono {fuel fuel' : Nat} (le : fuel ≤ fuel') {input : CodedInputStream} {proto : List Data}
    {r : Bool × CodedInputStream × List Data} (merged : mergePartialFromCodedStream pb _proto_data_mgr fuel input proto = some r) :
    mergePartialFromCodedStream pb _proto_data_mgr fuel' input proto = some r := by
  induction le with
  | refl => exact merged
  | step _ ih => exact merge_succ ih

theorem Merges.unique {input : CodedInputStream} {proto tree tree' : List Data} {result result' : Bool}
    (first : Merges pb _proto_data_mgr input proto result tree) (second : Merges pb _proto_data_mgr input proto result' tree') :
    result = result' ∧ tree = tree' := by
  obtain ⟨fuel, input', merged⟩ := first
  obtain ⟨fuel', input'', merged'⟩ := second
  have one := merge_mono (le_max_left fuel fuel') merged
  have two := merge_mono (le_max_right fuel fuel') merged'
  rw [one] at two
  obtain ⟨same, rest⟩ := Prod.mk.inj (Option.some.inj two)
  exact ⟨same, (Prod.mk.inj rest).2⟩

end Parser

section Limits

variable {pb : Protobuf} {_proto_data_mgr : String → Option (List Data)}

/-- What is returned, with more bytes behind the limit. -/
def behind {A B : Type} (later : List UInt8) (r : A × CodedInputStream × B) : A × CodedInputStream × B :=
  (r.1, { r.2.1 with later := r.2.1.later ++ later }, r.2.2)

theorem map_behind_behind {A B : Type} (later later' : List UInt8) (x : Option (A × CodedInputStream × B)) :
    (x.map (behind later')).map (behind later) = x.map (behind (later' ++ later)) := by
  rw [Option.map_map]
  congr 1
  funext r
  simp only [Function.comp_apply, behind, List.append_assoc]

theorem CodedInputStream.popLimit_append (rest more later : List UInt8) (legitimate : Bool) (depth : Nat) :
    popLimit ⟨rest, more ++ later, legitimate, depth⟩ later.length = ⟨rest ++ more, later, false, depth⟩ := by
  have all : (rest ++ (more ++ later)).length - later.length = (rest ++ more).length := by
    simp only [List.length_append]
    omega
  simp only [popLimit]
  rw [all, ← List.append_assoc, List.take_left, List.drop_left]

theorem uninterpreted_later (skips : SkipsFields pb) (tag : Nat) (rest later : List UInt8) (legitimate : Bool) (depth : Nat) (temp : Data) :
    uninterpreted pb tag ⟨rest, later, legitimate, depth⟩ temp = behind later (uninterpreted pb tag ⟨rest, [], legitimate, depth⟩ temp) := by
  unfold uninterpreted
  split_ifs
  · rfl
  · rw [skips.limit]
    rcases pb.skipField tag ⟨rest, [], legitimate, depth⟩ with ⟨_ | _, input⟩ <;> rfl

theorem readNumber_later (skips : SkipsFields pb) (text : Nat → List UInt8) (assign : List UInt8 → Data) (tag : Nat)
    (rest later : List UInt8) (legitimate : Bool) (depth : Nat) (temp : Data) :
    readNumber pb text assign tag ⟨rest, later, legitimate, depth⟩ temp =
      behind later (readNumber pb text assign tag ⟨rest, [], legitimate, depth⟩ temp) := by
  unfold readNumber
  split_ifs
  · dsimp only
    rcases pb.readVarint rest with ⟨_ | n, rest'⟩ <;> rfl
  · exact uninterpreted_later skips tag rest later legitimate depth temp

/-- The bytes behind the limit make no difference to a field, if they make none to the messages in it. -/
theorem readField_later (skips : SkipsFields pb) {merge : CodedInputStream → List Data → Option (Bool × CodedInputStream × List Data)}
    (nested : ∀ rest later legitimate depth message, merge ⟨rest, later, legitimate, depth⟩ message =
      (merge ⟨rest, [], legitimate, depth⟩ message).map (behind later))
    (tag : Nat) (rest later : List UInt8) (legitimate : Bool) (depth : Nat) (temp : Data) :
    readField pb _proto_data_mgr merge tag ⟨rest, later, legitimate, depth⟩ temp =
      (readField pb _proto_data_mgr merge tag ⟨rest, [], legitimate, depth⟩ temp).map (behind later) := by
  have skipped := uninterpreted_later skips tag rest later legitimate depth temp
  unfold readField
  cases type : temp.type with
  | int32 | int64 | bool | int32_s | int64_s | bool_s =>
    exact congrArg some (readNumber_later skips _ _ tag rest later legitimate depth temp)
  | other => exact congrArg some skipped
  | string | string_s =>
    dsimp only
    split_ifs
    · rcases pb.readString rest with ⟨_ | _, value, rest'⟩ <;> rfl
    · exact congrArg some skipped
  | proto =>
    dsimp only
    split_ifs
    · rcases mutableProtoData _proto_data_mgr temp with _ | message
      · rfl
      · rw [Option.bind_some, Option.bind_some, nested rest later]
        rcases merge ⟨rest, [], legitimate, depth⟩ message with _ | ⟨result, ⟨rest', later', legitimate', depth'⟩, message'⟩
        · rfl
        · simp only [Option.map_some, behind]
          split_ifs <;> rfl
    · exact congrArg some skipped
  | proto_s =>
    dsimp only
    by_cases wire : getTagWireType tag = WireType.length_delimited.code
    · rw [if_pos wire, if_pos wire]
      rcases pb.readVarint rest with ⟨_ | length, rest'⟩
      · rfl
      · dsimp only
        by_cases deep : pb.recursionLimit < depth + 1
        · rw [if_pos deep, if_pos deep]
          rfl
        · rw [if_neg deep, if_neg deep]
          simp only [CodedInputStream.pushLimit]
          rw [nested _ (rest'.drop (length % 2 ^ 32) ++ later), nested _ (rest'.drop (length % 2 ^ 32) ++ [])]
          rcases merge ⟨rest'.take (length % 2 ^ 32), [], legitimate, depth + 1⟩ ((_proto_data_mgr temp.proto_type).getD []) with
            _ | ⟨result, ⟨rest'', later', legitimate', depth'⟩, message'⟩
          · rfl
          · have here := CodedInputStream.popLimit_append rest'' (later' ++ rest'.drop (length % 2 ^ 32))
            simp only [List.append_assoc] at here
            simp only [Option.map_some, behind, here]
            split_ifs
            · simp only [List.append_assoc, List.nil_append]
            · rfl
    · rw [if_neg wire, if_neg wire]
      exact congrArg some skipped

theorem readTag_later (rest later : List UInt8) (legitimate : Bool) (depth : Nat) : readTag pb ⟨rest, later, legitimate, depth⟩ =
    ((readTag pb ⟨rest, [], legitimate, depth⟩).1, { (readTag pb ⟨rest, [], legitimate, depth⟩).2 with
      later := (readTag pb ⟨rest, [], legitimate, depth⟩).2.later ++ later }) := by
  unfold readTag
  split_ifs
  · rfl
  · dsimp only
    rcases pb.readVarint rest with ⟨_ | n, rest'⟩ <;> rfl

/-- The bytes behind the limit make no difference. -/
theorem merge_later (skips : SkipsFields pb) (fuel : Nat) (rest later : List UInt8) (legitimate : Bool) (depth : Nat) (proto : List Data) :
    mergePartialFromCodedStream pb _proto_data_mgr fuel ⟨rest, later, legitimate, depth⟩ proto =
      (mergePartialFromCodedStream pb _proto_data_mgr fuel ⟨rest, [], legitimate, depth⟩ proto).map (behind later) := by
  induction fuel generalizing rest later legitimate depth proto with
  | zero => rfl
  | succ fuel ih =>
    rw [mergePartialFromCodedStream, mergePartialFromCodedStream, readTag_later]
    rcases readTag pb ⟨rest, [], legitimate, depth⟩ with ⟨tag, ⟨rest', later', legitimate', depth'⟩⟩
    dsimp only
    split_ifs
    · rfl
    · rcases proto.span _ with ⟨before, _ | ⟨temp, after⟩⟩
      · dsimp only
        rw [ih rest' (later' ++ later), ih rest' later', map_behind_behind]
      · dsimp only
        rw [readField_later skips ih tag rest' (later' ++ later), readField_later skips ih tag rest' later', ← map_behind_behind]
        rcases (readField pb _proto_data_mgr (mergePartialFromCodedStream pb _proto_data_mgr fuel) tag ⟨rest', [], legitimate', depth'⟩
          temp).map (behind later') with _ | ⟨_ | result, ⟨rest'', later'', legitimate'', depth''⟩, temp'⟩
        · rfl
        · simp only [Option.map_some, Option.bind_some, behind, resume]
          rw [ih rest'' (later'' ++ later), ih rest'' later'', map_behind_behind]
        · rfl

end Limits

section Ends

variable {pb : Protobuf} {_proto_data_mgr : String → Option (List Data)}

/-- What stays of a field while it is read. -/
def Data.declared (temp : Data) : Int × FieldType × String := (temp.index, temp.type, temp.proto_type)

variable (pb _proto_data_mgr) in
/-- What can come of a field. -/
inductive FieldRead (merge : CodedInputStream → List Data → Option (Bool × CodedInputStream × List Data)) (tag : Nat)
    (input : CodedInputStream) (temp : Data) : Outcome → CodedInputStream → Data → Prop where
  | ended : FieldRead merge tag input temp (.return true) input temp
  | skipped {input' : CodedInputStream} (skip : pb.skipField tag input = (true, input')) : FieldRead merge tag input temp .next input' temp
  | refused {input' : CodedInputStream} (skip : pb.skipField tag input = (false, input')) :
      FieldRead merge tag input temp (.return false) input' temp
  /-- A number, a text or the length of a message. -/
  | value {outcome : Outcome} {rest : List UInt8} {depth : Nat} {temp' : Data} (declared : temp'.declared = temp.declared) :
      FieldRead merge tag input temp outcome { input with rest := rest, recursion_depth_ := depth } temp'
  | nested {outcome : Outcome} {input' : CodedInputStream} {temp' : Data} (type : temp.type = .proto)
      (declared : temp'.declared = temp.declared) : FieldRead merge tag input temp outcome input' temp'
  | element {result : Bool} {rest : List UInt8} {length : Nat} {input' : CodedInputStream} {message : List Data} {temp' : Data}
      (type : temp.type = .proto_s)
      (merged : merge ⟨rest.take length, rest.drop length ++ input.later, input.legitimate_message_end_, input.recursion_depth_ + 1⟩
        ((_proto_data_mgr temp.proto_type).getD []) = some (result, input', message))
      (failed : result = false ∨ input'.legitimate_message_end_ = false) (declared : temp'.declared = temp.declared) :
      FieldRead merge tag input temp (.return false) input' temp'
  | elements {rest : List UInt8} {length depth : Nat} {input' : CodedInputStream} {message : List Data} {temp' : Data}
      (type : temp.type = .proto_s)
      (merged : merge ⟨rest.take length, rest.drop length ++ input.later, input.legitimate_message_end_, input.recursion_depth_ + 1⟩
        ((_proto_data_mgr temp.proto_type).getD []) = some (true, input', message))
      (declared : temp'.declared = temp.declared) :
      FieldRead merge tag input temp .next { input'.popLimit input.later.length with recursion_depth_ := depth } temp'

section Fields

variable {merge : CodedInputStream → List Data → Option (Bool × CodedInputStream × List Data)} {tag : Nat} {input input' : CodedInputStream}
  {temp temp' : Data} {outcome : Outcome}

theorem fieldRead_uninterpreted (skipped : uninterpreted pb tag input temp = (outcome, input', temp')) :
    FieldRead pb _proto_data_mgr merge tag input temp outcome input' temp' := by
  unfold uninterpreted at skipped
  split_ifs at skipped
  · cases skipped
    exact .ended
  · rcases here : pb.skipField tag input with ⟨_ | _, input''⟩
    · rw [here] at skipped
      cases skipped
      exact .refused here
    · rw [here] at skipped
      cases skipped
      exact .skipped here

theorem fieldRead_readNumber {text : Nat → List UInt8} {assign : List UInt8 → Data} (same : ∀ text, (assign text).declared = temp.declared)
    (number : readNumber pb text assign tag input temp = (outcome, input', temp')) :
    FieldRead pb _proto_data_mgr merge tag input temp outcome input' temp' := by
  unfold readNumber at number
  split_ifs at number
  · rcases here : pb.readVarint input.rest with ⟨_ | n, rest⟩
    · rw [here] at number
      cases number
      exact .value rfl
    · rw [here] at number
      cases number
      exact .value (same _)
  · exact fieldRead_uninterpreted number

theorem fieldRead_readField (read : readField pb _proto_data_mgr merge tag input temp = some (outcome, input', temp')) :
    FieldRead pb _proto_data_mgr merge tag input temp outcome input' temp' := by
  have declared : ∀ value value_s message messages,
      ({ temp with value := value, value_s := value_s, proto_value := message, proto_value_s := messages } : Data).declared =
        temp.declared := fun _ _ _ _ => rfl
  unfold readField at read
  cases type : temp.type with
  | int32 | int64 | bool | int32_s | int64_s | bool_s =>
    rw [type] at read
    rw [type] at declared
    exact fieldRead_readNumber (fun _ => declared _ _ _ _) (Option.some.inj read)
  | other =>
    rw [type] at read
    exact fieldRead_uninterpreted (Option.some.inj read)
  | string | string_s =>
    rw [type] at read
    dsimp only at read
    split_ifs at read
    · rw [type] at declared
      rcases here : pb.readString input.rest with ⟨_ | _, value, rest⟩ <;> rw [here] at read <;> cases read
      · exact .value (by first | rfl | exact declared _ _ _ _)
      · exact .value (declared _ _ _ _)
    · exact fieldRead_uninterpreted (Option.some.inj read)
  | proto =>
    rw [type] at read
    dsimp only at read
    split_ifs at read
    · obtain ⟨message, -, read⟩ := Option.bind_eq_some_iff.1 read
      obtain ⟨⟨result, input'', message⟩, -, read⟩ := Option.map_eq_some_iff.1 read
      dsimp only at read
      rw [type] at declared
      split_ifs at read <;>
      · cases read
        exact .nested type (declared _ _ _ _)
    · exact fieldRead_uninterpreted (Option.some.inj read)
  | proto_s =>
    rw [type] at read
    dsimp only at read
    by_cases wire : getTagWireType tag = WireType.length_delimited.code
    · rw [if_pos wire] at read
      rcases here : pb.readVarint input.rest with ⟨_ | length, rest⟩
      · rw [here] at read
        cases read
        exact .value rfl
      · rw [here] at read
        dsimp only at read
        split_ifs at read
        · cases read
          exact .value rfl
        · obtain ⟨⟨result, input'', message⟩, merged, read⟩ := Option.map_eq_some_iff.1 read
          dsimp only at read
          rw [type] at declared
          split_ifs at read with failed
          · cases read
            exact .element type merged failed (declared _ _ _ _)
          · cases read
            rw [not_or, Bool.not_eq_false, Bool.not_eq_false] at failed
            obtain ⟨rfl, -⟩ := failed
            exact .elements type merged (declared _ _ _ _)
    · rw [if_neg wire] at read
      exact fieldRead_uninterpreted (Option.some.inj read)

theorem FieldRead.declared (read : FieldRead pb _proto_data_mgr merge tag input temp outcome input' temp') :
    temp'.declared = temp.declared := by
  cases read with
  | ended | skipped | refused => rfl
  | value declared | nested _ declared | element _ _ _ declared | elements _ _ declared => exact declared

end Fields

theorem declared_append {before after : List Data} {temp temp' : Data} (same : temp'.declared = temp.declared) :
    (before ++ temp' :: after).map Data.declared = (before ++ temp :: after).map Data.declared := by
  rw [List.map_append, List.map_append, List.map_cons, List.map_cons, same]

/-- No field of the message is nested, and none can have a nested message in it. -/
def Shallow (_proto_data_mgr : String → Option (List Data)) (proto : List Data) : Prop :=
  ∀ temp ∈ proto, temp.type ≠ .proto ∧ (temp.type = .proto_s → ¬ Deep _proto_data_mgr temp.proto_type)

theorem Shallow.congr {proto proto' : List Data} (shallow : Shallow _proto_data_mgr proto)
    (same : proto'.map Data.declared = proto.map Data.declared) : Shallow _proto_data_mgr proto' := by
  intro temp mem
  have there : temp.declared ∈ proto.map Data.declared := by
    rw [← same]
    exact List.mem_map_of_mem mem
  obtain ⟨temp', mem', declared⟩ := List.mem_map.1 there
  obtain ⟨-, rest⟩ := Prod.mk.inj declared
  obtain ⟨type, proto_type⟩ := Prod.mk.inj rest
  rw [← type, ← proto_type]
  exact shallow temp' mem'

theorem shallow_of_not_deep {name : String} (flat : ¬ Deep _proto_data_mgr name) :
    Shallow _proto_data_mgr ((_proto_data_mgr name).getD []) := by
  cases found : _proto_data_mgr name with
  | none => exact nofun
  | some template =>
    intro temp mem
    rw [Option.getD_some] at mem
    exact ⟨fun type => flat (.here found mem type), fun type deep => flat (.inside found mem type deep)⟩

/-- Where the parser of a message comes to its end: it gives back the limit it had, and says that it is at the end only there. -/
structure Ends (input : CodedInputStream) (result : Bool) (input' : CodedInputStream) : Prop where
  later : result = true → input'.later = input.later
  legitimate : result = true → input'.legitimate_message_end_ = true → input'.rest = []

theorem Ends.of_not_legitimate {input input' : CodedInputStream} {result : Bool} (later : input'.later = input.later)
    (not_legitimate : input'.legitimate_message_end_ = false) : Ends input result input' := by
  refine ⟨fun _ => later, fun _ legitimate => ?_⟩
  rw [not_legitimate] at legitimate
  cases legitimate

theorem FieldRead.ends {merge : CodedInputStream → List Data → Option (Bool × CodedInputStream × List Data)} {tag : Nat}
    {input input' : CodedInputStream} {temp temp' : Data} {outcome : Outcome} (skips : SkipsFields pb)
    (nested : ∀ input message result input' tree, Shallow _proto_data_mgr message →
      (input.legitimate_message_end_ = true → input.rest = []) → merge input message = some (result, input', tree) →
      Ends input result input')
    (flat : temp.type ≠ .proto ∧ (temp.type = .proto_s → ¬ Deep _proto_data_mgr temp.proto_type))
    (start : input.legitimate_message_end_ = false)
    (read : FieldRead pb _proto_data_mgr merge tag input temp outcome input' temp') :
    Ends input (outcome ≠ .return false) input' := by
  obtain ⟨single, deep⟩ := flat
  cases read with
  | ended => exact .of_not_legitimate rfl start
  | skipped skip =>
    obtain ⟨later, legitimate⟩ := skips.kept _ _ _ skip
    refine ⟨fun _ => later, fun _ end' => ?_⟩
    rcases legitimate end' with before | rest
    · rw [start] at before
      cases before
    · exact rest
  | refused skip => exact ⟨fun again => by simp at again, fun again => by simp at again⟩
  | value => exact .of_not_legitimate rfl start
  | nested type => exact absurd type single
  | element type merged => exact ⟨fun again => by simp at again, fun again => by simp at again⟩
  | @elements rest length depth input' message temp' type merged =>
    have ends := nested _ _ _ _ _ (shallow_of_not_deep (deep type)) (fun end' => by rw [start] at end'; cases end') merged
    have later := ends.later rfl
    obtain ⟨rest', later', legitimate, depth'⟩ := input'
    obtain rfl : later' = rest.drop length ++ input.later := later
    rw [CodedInputStream.popLimit_append]
    exact .of_not_legitimate rfl rfl

theorem readTag_ends {input input' : CodedInputStream} {tag : Nat} (start : input.legitimate_message_end_ = true → input.rest = [])
    (read : readTag pb input = (tag, input')) : Ends input true input' ∧ (tag ≠ 0 → input'.legitimate_message_end_ = false) := by
  unfold readTag at read
  split_ifs at read with empty
  · cases read
    exact ⟨⟨fun _ => rfl, fun _ _ => empty⟩, fun nonzero => absurd rfl nonzero⟩
  · have before : input.legitimate_message_end_ = false := Bool.eq_false_of_not_eq_true fun end' => empty (start end')
    rcases here : pb.readVarint input.rest with ⟨_ | n, rest⟩ <;>
    · rw [here] at read
      cases read
      exact ⟨.of_not_legitimate rfl before, fun _ => before⟩

theorem span_append {proto before after : List Data} {p : Data → Bool} (span : proto.span p = (before, after)) : proto = before ++ after := by
  rw [List.span_eq_takeWhile_dropWhile] at span
  cases span
  exact List.takeWhile_append_dropWhile.symm

/-- A message that no nested message is in is read to its end. -/
theorem merge_ends (skips : SkipsFields pb) {fuel : Nat} {input input' : CodedInputStream} {proto tree : List Data} {result : Bool}
    (shallow : Shallow _proto_data_mgr proto) (start : input.legitimate_message_end_ = true → input.rest = [])
    (merged : mergePartialFromCodedStream pb _proto_data_mgr fuel input proto = some (result, input', tree)) :
    Ends input result input' := by
  induction fuel generalizing input input' proto tree result with
  | zero => cases merged
  | succ fuel ih =>
    rw [mergePartialFromCodedStream] at merged
    rcases here : readTag pb input with ⟨tag, input₁⟩
    obtain ⟨⟨later₁, legitimate₁⟩, before₁⟩ := readTag_ends start here
    rw [here] at merged
    dsimp only at merged
    split_ifs at merged with zero
    · cases merged
      exact ⟨later₁, legitimate₁⟩
    · rcases span : proto.span (·.index ≠ getTagFieldNumber tag) with ⟨before, _ | ⟨temp, after⟩⟩
      · rw [span] at merged
        obtain ⟨later, legitimate⟩ := ih shallow (legitimate₁ rfl) merged
        exact ⟨fun good => (later good).trans (later₁ rfl), legitimate⟩
      · rw [span] at merged
        obtain ⟨⟨outcome, input₂, temp'⟩, read, merged⟩ := Option.bind_eq_some_iff.1 merged
        have fieldRead := fieldRead_readField read
        obtain rfl := span_append span
        obtain ⟨later₂, legitimate₂⟩ := fieldRead.ends skips (fun _ _ _ _ _ shallow start merged => ih shallow start merged)
          (shallow temp (List.mem_append_right _ List.mem_cons_self)) (before₁ zero)
        cases outcome with
        | next =>
          obtain ⟨later, legitimate⟩ := ih (shallow.congr (declared_append fieldRead.declared)) (legitimate₂ (by simp)) merged
          exact ⟨fun good => (later good).trans ((later₂ (by simp)).trans (later₁ rfl)), legitimate⟩
        | «return» result' =>
          cases merged
          refine ⟨fun good => (later₂ (by simp [good])).trans (later₁ rfl), fun good => legitimate₂ (by simp [good])⟩

end Ends

section Skipping

variable {pb : Protobuf} {_proto_data_mgr : String → Option (List Data)} {f : Field} {temp : Data} {proto : List Data}

theorem Field.WellFormed.numbered (wellFormed : f.WellFormed pb) : 1 ≤ f.number ∧ f.number < 2 ^ 29 := by
  cases wellFormed <;> assumption

theorem Field.WellFormed.ne_end_group (wellFormed : f.WellFormed pb) : f.type ≠ .end_group := by
  cases wellFormed <;> exact nofun

theorem Field.WellFormed.eq_varint (wellFormed : f.WellFormed pb) (type : f.type = .varint) : ∃ n, n < 2 ^ 64 ∧ f.payload = pb.varint n := by
  cases wellFormed with
  | varint _ small => exact ⟨_, small, rfl⟩
  | fixed64 | length_delimited | group | fixed32 => cases type

theorem Field.WellFormed.eq_length_delimited (wellFormed : f.WellFormed pb) (type : f.type = .length_delimited) :
    ∃ s, s.length < 2 ^ 31 ∧ f.payload = pb.varint s.length ++ s := by
  cases wellFormed with
  | length_delimited _ short => exact ⟨_, short, rfl⟩
  | varint | fixed64 | group | fixed32 => cases type

theorem WireType.code_inj {type type' : WireType} : type.code = type'.code ↔ type = type' := by
  cases type <;> cases type' <;> decide

/-- What is read does not depend on the bytes behind it. -/
inductive Local (temp : Data) (read : List UInt8 → List UInt8 → Option (Outcome × CodedInputStream × Data)) : Prop where
  | none (stuck : ∀ rest later, read rest later = none)
  | «return» (result : Bool) (temp' : Data) (stops : ∀ rest later, ∃ input', read rest later = some (.return result, input', temp'))
  | next (temp' : Data) (depth : Nat) (goes : ∀ rest later, read rest later = some (.next, ⟨rest, later, false, depth⟩, temp'))

theorem local_uninterpreted (skips : SkipsFields pb) (wellFormed : f.WellFormed pb)
    (wire : getTagWireType (makeTag f.number f.type) = f.type.code) (depth : Nat) :
    Local temp fun rest later =>
      some (uninterpreted pb (makeTag f.number f.type) ⟨f.payload ++ rest, later, false, depth⟩ temp) := by
  have other : ¬ getTagWireType (makeTag f.number f.type) = WireType.end_group.code := by
    rw [wire, WireType.code_inj]
    exact wellFormed.ne_end_group
  rcases skips.whole f wellFormed false depth with whole | refused
  · refine .next temp depth fun rest later => ?_
    rw [uninterpreted, if_neg other, whole]
  · refine .return false temp fun rest later => ?_
    have here := refused rest later
    rcases same : pb.skipField (makeTag f.number f.type) ⟨f.payload ++ rest, later, false, depth⟩ with ⟨done, input'⟩
    rw [same] at here
    obtain rfl : done = false := here
    exact ⟨input', by rw [uninterpreted, if_neg other, same]⟩

theorem local_readNumber (skips : SkipsFields pb) (wellFormed : f.WellFormed pb)
    (wire : getTagWireType (makeTag f.number f.type) = f.type.code) (depth : Nat) (text : Nat → List UInt8) (assign : List UInt8 → Data) :
    Local temp fun rest later =>
      some (readNumber pb text assign (makeTag f.number f.type) ⟨f.payload ++ rest, later, false, depth⟩ temp) := by
  unfold readNumber
  by_cases type : f.type = .varint
  · obtain ⟨n, small, payload⟩ := wellFormed.eq_varint type
    refine .next (assign (text n)) depth fun rest later => ?_
    rw [if_pos (by rw [wire, type]), payload, pb.readVarint_varint n rest small]
  · have other : ¬ getTagWireType (makeTag f.number f.type) = WireType.varint.code := by
      rw [wire, WireType.code_inj]
      exact type
    simp only [if_neg other]
    exact local_uninterpreted skips wellFormed wire depth

theorem local_readField (skips : SkipsFields pb) (wellFormed : f.WellFormed pb)
    (wire : getTagWireType (makeTag f.number f.type) = f.type.code)
    (flat : f.type = .length_delimited → temp.type ≠ .proto ∧ (temp.type = .proto_s → ¬ Deep _proto_data_mgr temp.proto_type))
    (fuel depth : Nat) :
    Local temp fun rest later => readField pb _proto_data_mgr (mergePartialFromCodedStream pb _proto_data_mgr fuel)
      (makeTag f.number f.type) ⟨f.payload ++ rest, later, false, depth⟩ temp := by
  have skipped := @local_uninterpreted pb f temp skips wellFormed wire depth
  have length_delimited : getTagWireType (makeTag f.number f.type) = WireType.length_delimited.code ↔ f.type = .length_delimited := by
    rw [wire, WireType.code_inj]
  obtain ⟨index, type, value, value_s, proto_type, proto_value, proto_value_s⟩ := temp
  unfold readField
  cases type with
  | int32 | int64 | bool | int32_s | int64_s | bool_s => exact local_readNumber skips wellFormed wire depth _ _
  | other => exact skipped
  | string =>
    by_cases text : f.type = .length_delimited
    · obtain ⟨s, short, payload⟩ := wellFormed.eq_length_delimited text
      refine .next ⟨index, .string, s, value_s, proto_type, proto_value, proto_value_s⟩ depth fun rest later => ?_
      simp only [if_pos (length_delimited.2 text), payload, List.append_assoc, pb.readString_varint s rest short]
    · simp only [if_neg fun wire => text (length_delimited.1 wire)]
      exact skipped
  | string_s =>
    by_cases text : f.type = .length_delimited
    · obtain ⟨s, short, payload⟩ := wellFormed.eq_length_delimited text
      refine .next ⟨index, .string_s, value, value_s ++ [s], proto_type, proto_value, proto_value_s⟩ depth fun rest later => ?_
      simp only [if_pos (length_delimited.2 text), payload, List.append_assoc, pb.readString_varint s rest short]
    · simp only [if_neg fun wire => text (length_delimited.1 wire)]
      exact skipped
  | proto =>
    by_cases text : f.type = .length_delimited
    · exact absurd rfl (flat text).1
    · simp only [if_neg fun wire => text (length_delimited.1 wire)]
      exact skipped
  | proto_s =>
    by_cases text : f.type = .length_delimited
    · obtain ⟨s, short, payload⟩ := wellFormed.eq_length_delimited text
      have shallow := shallow_of_not_deep ((flat text).2 rfl)
      have whole : s.length % 2 ^ 32 = s.length := Nat.mod_eq_of_lt (by omega)
      simp only [if_pos (length_delimited.2 text), payload, List.append_assoc,
        pb.readVarint_varint s.length _ (by omega : s.length < 2 ^ 64)]
      by_cases deep : pb.recursionLimit < depth + 1
      · simp only [if_pos deep]
        exact .return false _ fun rest later => ⟨_, rfl⟩
      · simp only [if_neg deep, CodedInputStream.pushLimit, whole, List.take_left, List.drop_left]
        have nested := fun later => @merge_later pb _proto_data_mgr skips fuel s later false (depth + 1)
          ((_proto_data_mgr proto_type).getD [])
        cases merged : mergePartialFromCodedStream pb _proto_data_mgr fuel ⟨s, [], false, depth + 1⟩
          ((_proto_data_mgr proto_type).getD []) with
        | none =>
          refine .none fun rest later => ?_
          rw [nested, merged]
          rfl
        | some r =>
          obtain ⟨result, ⟨rest', later', legitimate', depth'⟩, message⟩ := r
          obtain ⟨later_eq, legitimate⟩ := merge_ends skips shallow (fun end' => by cases end') merged
          by_cases failed : result = false ∨ legitimate' = false
          · refine .return false ⟨index, .proto_s, value, value_s, proto_type, proto_value, proto_value_s ++ [message]⟩ fun rest later => ?_
            rw [nested, merged]
            simp only [Option.map_some, behind, if_pos failed]
            exact ⟨_, rfl⟩
          · refine .next ⟨index, .proto_s, value, value_s, proto_type, proto_value, proto_value_s ++ [message]⟩ (depth' - 1) fun rest later => ?_
            rw [not_or, Bool.not_eq_false, Bool.not_eq_false] at failed
            obtain ⟨rfl, rfl⟩ := failed
            obtain rfl : later' = [] := later_eq rfl
            obtain rfl : rest' = [] := legitimate rfl rfl
            rw [nested, merged]
            simp only [Option.map_some, behind, List.nil_append, CodedInputStream.popLimit_append]
            rfl
    · simp only [if_neg fun wire => text (length_delimited.1 wire)]
      exact skipped

theorem makeTag_field (numbered : 1 ≤ f.number ∧ f.number < 2 ^ 29) : makeTag f.number f.type ≠ 0 ∧ makeTag f.number f.type < 2 ^ 32 ∧
    getTagFieldNumber (makeTag f.number f.type) = f.number ∧ getTagWireType (makeTag f.number f.type) = f.type.code := by
  have data : Numbered ⟨f.number, .other, [], [], "", none, []⟩ := numbered
  exact makeTag_eq data f.type

/-- A number that the message does not have takes one step. -/
theorem merge_unknown {bytes rest later : List UInt8} {n depth : Nat} {legitimate : Bool} (more : bytes ≠ [])
    (reads : pb.readVarint bytes = (some n, rest)) (nonzero : n % 2 ^ 32 ≠ 0)
    (unknown : getTagFieldNumber (n % 2 ^ 32) ∉ proto.map Data.index) (fuel : Nat) :
    mergePartialFromCodedStream pb _proto_data_mgr (fuel + 1) ⟨bytes, later, legitimate, depth⟩ proto =
      mergePartialFromCodedStream pb _proto_data_mgr fuel ⟨rest, later, legitimate, depth⟩ proto := by
  have none' : proto.span (·.index ≠ getTagFieldNumber (n % 2 ^ 32)) = (proto, []) := by
    have other : ∀ temp ∈ proto, decide (temp.index ≠ getTagFieldNumber (n % 2 ^ 32)) = true := by
      intro temp mem
      refine decide_eq_true fun same => unknown ?_
      rw [← same]
      exact List.mem_map_of_mem mem
    rw [List.span_eq_takeWhile_dropWhile, List.takeWhile_eq_self_iff.2 other, List.dropWhile_eq_nil_iff.2 other]
  rw [mergePartialFromCodedStream, readTag, if_neg more, reads]
  simp only [if_neg nonzero, none']

/-- What is quiet is passed over, one step for every number. -/
theorem Quiet.merge {bytes : List UInt8} (quiet : Quiet pb proto bytes) : ∃ k, ∀ fuel tail later legitimate depth,
    mergePartialFromCodedStream pb _proto_data_mgr (fuel + k) ⟨bytes ++ tail, later, legitimate, depth⟩ proto =
      mergePartialFromCodedStream pb _proto_data_mgr fuel ⟨tail, later, legitimate, depth⟩ proto := by
  induction quiet with
  | nil => exact ⟨0, fun _ _ _ _ _ => rfl⟩
  | cons more reads nonzero unknown _ ih =>
    obtain ⟨k, ih⟩ := ih
    refine ⟨k + 1, fun fuel tail later legitimate depth => ?_⟩
    rw [← Nat.add_assoc, merge_unknown (List.append_ne_nil_of_left_ne_nil more tail) (reads tail) nonzero unknown, ih]

theorem Quiet.field (wellFormed : f.WellFormed pb) (unknown : ¬ Known proto f) (quiet : Quiet pb proto f.payload) :
    Quiet pb proto (f.bytes pb) := by
  obtain ⟨nonzero, small, number, -⟩ := makeTag_field wellFormed.numbered
  have tag : makeTag f.number f.type % 2 ^ 32 = makeTag f.number f.type := Nat.mod_eq_of_lt small
  refine .cons (n := makeTag f.number f.type) ?_ (fun tail => ?_) ?_ ?_ quiet
  · exact List.append_ne_nil_of_left_ne_nil (varint_ne_nil pb (by omega)) _
  · rw [Field.bytes, List.append_assoc]
    exact pb.readVarint_varint _ _ (by omega)
  · rw [tag]
    exact nonzero
  · rw [tag, number]
    exact unknown

theorem Quiet.congr {proto' : List Data} {bytes : List UInt8} (quiet : Quiet pb proto bytes)
    (same : proto'.map Data.index = proto.map Data.index) : Quiet pb proto' bytes := by
  induction quiet with
  | nil => exact .nil
  | cons more reads nonzero unknown _ ih => exact .cons more reads nonzero (by rw [same]; exact unknown) ih

theorem index_of_declared {proto' : List Data} (same : proto'.map Data.declared = proto.map Data.declared) :
    proto'.map Data.index = proto.map Data.index := by
  have fst : ∀ l : List Data, l.map Data.index = (l.map Data.declared).map Prod.fst := fun l => by rw [List.map_map]; rfl
  rw [fst, fst, same]

theorem Nested.congr {proto' : List Data} (same : proto'.map Data.declared = proto.map Data.declared)
    (nested : Nested _proto_data_mgr proto' f) : Nested _proto_data_mgr proto f := by
  obtain ⟨type, temp, mem, index, kind⟩ := nested
  have there : temp.declared ∈ proto.map Data.declared := by
    rw [← same]
    exact List.mem_map_of_mem mem
  obtain ⟨temp', mem', declared⟩ := List.mem_map.1 there
  obtain ⟨index', rest⟩ := Prod.mk.inj declared
  obtain ⟨type', proto_type⟩ := Prod.mk.inj rest
  refine ⟨type, temp', mem', index'.trans index, ?_⟩
  rw [type', proto_type]
  exact kind

variable {later : List UInt8} {result : Bool} {tree : List Data}

theorem Merges.unknown (wellFormed : f.WellFormed pb) (unknown : ¬ Known proto f) (quiet : Quiet pb proto f.payload)
    (rest : List UInt8) (depth : Nat) :
    Merges pb _proto_data_mgr ⟨f.bytes pb ++ rest, later, false, depth⟩ proto result tree ↔
      Merges pb _proto_data_mgr ⟨rest, later, false, depth⟩ proto result tree := by
  obtain ⟨k, same⟩ := @Quiet.merge pb _proto_data_mgr proto _ (quiet.field wellFormed unknown)
  constructor
  · rintro ⟨fuel, input', merged⟩
    have more := merge_mono (Nat.le_add_right fuel k) merged
    rw [same] at more
    exact ⟨fuel, input', more⟩
  · rintro ⟨fuel, input', merged⟩
    rw [← same] at merged
    exact ⟨_, input', merged⟩

theorem exists_of_known (known : Known proto f) : ∃ before temp after, proto = before ++ temp :: after ∧ temp.index = f.number ∧
    f.number ∉ before.map Data.index := by
  obtain ⟨indices, indices', split, absent⟩ := List.eq_append_cons_of_mem known
  obtain ⟨before, rest, rfl, rfl, here⟩ := List.map_eq_append_iff.1 split
  obtain ⟨temp, after, rfl, index, -⟩ := List.map_eq_cons_iff.1 here
  exact ⟨before, temp, after, rfl, index, absent⟩

/-- A field of the message that is not nested: what comes of the bytes behind it, comes of the whole. -/
theorem Merges.known (skips : SkipsFields pb) (wellFormed : f.WellFormed pb) (known : Known proto f)
    (flat : ¬ Nested _proto_data_mgr proto f) {rest rest' : List UInt8}
    (behind : ∀ proto' depth, proto'.map Data.declared = proto.map Data.declared →
      Merges pb _proto_data_mgr ⟨rest, later, false, depth⟩ proto' result tree →
      Merges pb _proto_data_mgr ⟨rest', later, false, depth⟩ proto' result tree) {depth : Nat}
    (merges : Merges pb _proto_data_mgr ⟨f.bytes pb ++ rest, later, false, depth⟩ proto result tree) :
    Merges pb _proto_data_mgr ⟨f.bytes pb ++ rest', later, false, depth⟩ proto result tree := by
  obtain ⟨before, temp, after, rfl, index, absent⟩ := exists_of_known known
  obtain ⟨-, -, -, wire⟩ := makeTag_field (f := f) wellFormed.numbered
  have numbered : Numbered temp := by
    rw [Numbered, index]
    exact wellFormed.numbered
  have step := fun fuel rest => @merge_tag pb _proto_data_mgr temp numbered f.type before after
    (by rw [index]; exact absent) (f.payload ++ rest) later false depth fuel
  simp only [index, ← List.append_assoc] at step
  have flat' : f.type = .length_delimited → temp.type ≠ .proto ∧ (temp.type = .proto_s → ¬ Deep _proto_data_mgr temp.proto_type) := by
    have mem : temp ∈ before ++ temp :: after := List.mem_append_right _ List.mem_cons_self
    intro type
    exact ⟨fun single => flat ⟨type, temp, mem, index, .inl single⟩, fun repeated deep => flat ⟨type, temp, mem, index, .inr ⟨repeated, deep⟩⟩⟩
  obtain ⟨fuel, input', merged⟩ := merges
  cases fuel with
  | zero => cases merged
  | succ fuel =>
    rw [Field.bytes, step] at merged
    obtain ⟨⟨outcome, input₁, temp'⟩, read, merged⟩ := Option.bind_eq_some_iff.1 merged
    have declared := (fieldRead_readField read).declared
    rcases local_readField skips wellFormed wire flat' fuel depth with stuck | ⟨result', temp'', stops⟩ | ⟨temp'', depth', goes⟩
    · rw [stuck rest later] at read
      cases read
    · obtain ⟨input₂, same⟩ := stops rest later
      rw [same] at read
      cases read
      cases merged
      obtain ⟨input₃, same'⟩ := stops rest' later
      exact ⟨fuel + 1, input₃, by rw [Field.bytes, step, same']; rfl⟩
    · rw [goes rest later] at read
      cases read
      obtain ⟨fuel', input₂, merged'⟩ := behind _ depth' (declared_append declared) ⟨fuel, input', merged⟩
      refine ⟨max fuel fuel' + 1, input₂, ?_⟩
      rw [Field.bytes, step,
        readField_mono (fun input message r merged => merge_mono (le_max_left fuel fuel') merged) (goes rest' later)]
      exact merge_mono (le_max_right fuel fuel') merged'

theorem known_congr {proto' : List Data} (same : proto'.map Data.declared = proto.map Data.declared) : Known proto' f ↔ Known proto f := by
  rw [Known, Known, index_of_declared same]

/-- The message is as it was behind what is harmless. -/
theorem Harmless.merges {bytes : List UInt8} (harmless : Harmless pb proto bytes) {proto' : List Data}
    (same : proto'.map Data.index = proto.map Data.index) (depth : Nat) :
    Merges pb _proto_data_mgr ⟨bytes, later, false, depth⟩ proto' true proto' := by
  induction harmless with
  | nil => exact ⟨1, _, rfl⟩
  | cons more reads nonzero unknown _ ih =>
    obtain ⟨fuel, input', merged⟩ := ih
    refine ⟨fuel + 1, input', ?_⟩
    rw [merge_unknown more reads nonzero (by rw [same]; exact unknown), merged]
  | @stop bytes stops =>
    by_cases empty : bytes = []
    · subst empty
      exact ⟨1, _, rfl⟩
    · rcases here : pb.readVarint bytes with ⟨_ | n, rest⟩
      · refine ⟨1, ⟨rest, later, false, depth⟩, ?_⟩
        rw [mergePartialFromCodedStream, readTag, if_neg empty, here]
        rfl
      · have zero := stops n (by rw [here])
        refine ⟨1, ⟨rest, later, false, depth⟩, ?_⟩
        rw [mergePartialFromCodedStream, readTag, if_neg empty, here]
        simp only [zero, if_true]

variable {fields : List Field}

theorem Skippable.merges (skips : SkipsFields pb) (skippable : Skippable pb _proto_data_mgr proto fields)
    (wellFormed : ∀ f ∈ fields, f.WellFormed pb) {proto' : List Data} (same : proto'.map Data.declared = proto.map Data.declared)
    (depth : Nat) : Merges pb _proto_data_mgr ⟨fields.flatMap (Field.bytes pb), later, false, depth⟩ proto' result tree ↔
      Merges pb _proto_data_mgr ⟨(fields.filter (Known proto ·)).flatMap (Field.bytes pb), later, false, depth⟩ proto' result tree := by
  induction skippable generalizing proto' depth with
  | complete all =>
    have filter : List.filter (fun f => decide (Known proto f)) _ = _ := List.filter_eq_self.2 fun f mem => decide_eq_true (all f mem)
    rw [filter]
  | @known f fields known flat _ ih =>
    obtain ⟨here, wellFormed⟩ := List.forall_mem_cons.1 wellFormed
    rw [List.filter_cons_of_pos (p := fun g => Known proto g) (decide_eq_true known), List.flatMap_cons, List.flatMap_cons]
    have known' := (known_congr same).2 known
    have flat' := fun nested => flat (Nested.congr same nested)
    constructor
    · exact Merges.known skips here known' flat' fun proto'' depth same' => (ih wellFormed (same'.trans same) depth).1
    · exact Merges.known skips here known' flat' fun proto'' depth same' => (ih wellFormed (same'.trans same) depth).2
  | @unknown f fields unknown quiet _ ih =>
    obtain ⟨here, wellFormed⟩ := List.forall_mem_cons.1 wellFormed
    rw [List.filter_cons_of_neg (p := fun g => Known proto g) (by rw [decide_eq_true_eq]; exact unknown), List.flatMap_cons]
    have unknown' := fun known => unknown ((known_congr same).1 known)
    exact (Merges.unknown here unknown' (quiet.congr (index_of_declared same)) _ depth).trans (ih wellFormed same depth)
  | @last fields unknown harmless =>
    have none' : fields.filter (fun f => Known proto f) = [] := List.filter_eq_nil_iff.2 fun f mem => by
      rw [decide_eq_true_eq]
      exact unknown f mem
    have first := @Harmless.merges pb _proto_data_mgr proto later _ harmless _ (index_of_declared same) depth
    have second : Merges pb _proto_data_mgr ⟨[], later, false, depth⟩ proto' true proto' := ⟨1, _, rfl⟩
    rw [none', List.flatMap_nil]
    constructor
    · intro merges
      obtain ⟨rfl, rfl⟩ := merges.unique first
      exact second
    · intro merges
      obtain ⟨rfl, rfl⟩ := merges.unique second
      exact first

end Skipping

theorem Quiet.varint {pb : Protobuf} {proto : List Data} {n : Nat} {rest : List UInt8} (small : n < 2 ^ 64) (nonzero : n % 2 ^ 32 ≠ 0)
    (unknown : getTagFieldNumber (n % 2 ^ 32) ∉ proto.map Data.index) (quiet : Quiet pb proto rest) : Quiet pb proto (pb.varint n ++ rest) := by
  refine .cons (List.append_ne_nil_of_left_ne_nil (varint_ne_nil pb small) rest) (fun tail => ?_) nonzero unknown quiet
  rw [List.append_assoc]
  exact pb.readVarint_varint n (rest ++ tail) small

section Zero

variable {pb : Protobuf} {_proto_data_mgr : String → Option (List Data)} {temp : Data} {after : List Data} {later : List UInt8} {depth : Nat}

variable (pb) in
/-- A field that leaves something behind in a message without values. -/
def Field.mark (temp : Data) : Field :=
  match temp.type with
  | .int32 | .int64 | .bool | .int32_s | .int64_s | .bool_s => ⟨temp.index, .varint, pb.varint 0⟩
  | .string | .string_s => ⟨temp.index, .length_delimited, pb.varint 1 ++ [0]⟩
  | .proto | .proto_s | .other => ⟨temp.index, .length_delimited, pb.varint 0 ++ []⟩

theorem Field.mark_wellFormed (numbered : Numbered temp) : (Field.mark pb temp).WellFormed pb := by
  unfold Field.mark
  cases temp.type with
  | int32 | int64 | bool | int32_s | int64_s | bool_s => exact .varint numbered (by decide)
  | string | string_s => exact .length_delimited (s := [0]) numbered (by decide)
  | proto | proto_s | other => exact .length_delimited (s := []) numbered (by decide)

theorem Field.mark_number : (Field.mark pb temp).number = temp.index := by
  unfold Field.mark
  cases temp.type <;> rfl

theorem merge_nil (fuel : Nat) (legitimate : Bool) (proto : List Data) :
    mergePartialFromCodedStream pb _proto_data_mgr (fuel + 1) ⟨[], later, legitimate, depth⟩ proto =
      some (true, ⟨[], later, true, depth⟩, proto) := rfl

/-- Zero for a tag is the end. -/
theorem merge_zero (fuel : Nat) (rest : List UInt8) (legitimate : Bool) (proto : List Data) :
    mergePartialFromCodedStream pb _proto_data_mgr (fuel + 1) ⟨pb.varint 0 ++ rest, later, legitimate, depth⟩ proto =
      some (true, ⟨rest, later, legitimate, depth⟩, proto) := by
  have more := List.append_ne_nil_of_left_ne_nil (varint_ne_nil pb (n := 0) (by decide)) rest
  rw [mergePartialFromCodedStream, readTag, if_neg more, pb.readVarint_varint 0 rest (by decide)]
  rfl

/-- A message whose first field changes, and is the last of the input, is not the message it was. -/
theorem tree_of_last {f : Field} (numbered : Numbered temp) (number : f.number = temp.index)
    (last : ∀ fuel r, readField pb _proto_data_mgr (mergePartialFromCodedStream pb _proto_data_mgr fuel) (makeTag temp.index f.type)
      ⟨f.payload, later, false, depth⟩ temp = some r → r.1 = .return false ∨ r.2.2 ≠ temp ∧ (r.1 = .next → r.2.1.rest = [])) :
    ¬ Merges pb _proto_data_mgr ⟨f.bytes pb, later, false, depth⟩ (temp :: after) true (temp :: after) := by
  rintro ⟨fuel, input', merged⟩
  cases fuel with
  | zero => cases merged
  | succ fuel =>
    have step := @merge_tag pb _proto_data_mgr temp numbered f.type [] after
      (fun mem => nomatch mem) f.payload later false depth fuel
    rw [List.nil_append] at step
    rw [Field.bytes, number, step] at merged
    obtain ⟨⟨outcome, input₁, temp'⟩, read, merged⟩ := Option.bind_eq_some_iff.1 merged
    rcases last fuel _ read with failed | ⟨changed, rest⟩
    · obtain rfl : outcome = .return false := failed
      cases merged
    cases outcome with
    | next =>
      obtain ⟨rest', later', legitimate, depth'⟩ := input₁
      obtain rfl : rest' = [] := rest rfl
      cases fuel with
      | zero => cases merged
      | succ fuel =>
        rw [resume, merge_nil] at merged
        have same := (Prod.mk.inj (Prod.mk.inj (Option.some.inj merged)).2).2
        exact changed (List.cons.inj same).1
    | «return» result =>
      have same := (Prod.mk.inj (Prod.mk.inj (Option.some.inj merged)).2).2
      exact changed (List.cons.inj same).1

theorem mark_changes (numbered : Numbered temp) (blank : Blank temp) (read : temp.type ≠ .other) :
    ¬ Merges pb _proto_data_mgr ⟨(Field.mark pb temp).bytes pb, later, false, depth⟩ (temp :: after) true (temp :: after) := by
  refine tree_of_last numbered Field.mark_number fun fuel r here => ?_
  obtain ⟨-, -, -, wire⟩ := makeTag_eq numbered (Field.mark pb temp).type
  obtain ⟨index, type, value, value_s, proto_type, proto_value, proto_value_s⟩ := temp
  obtain ⟨rfl, rfl, rfl, rfl⟩ := blank
  have zero := pb.readVarint_varint 0 [] (by decide)
  rw [List.append_nil] at zero
  have text := pb.readString_varint [0] [] (by decide)
  rw [List.append_nil] at text
  cases type with
  | other => exact absurd rfl read
  | int32 | int64 | bool =>
    simp only [Field.mark] at here wire
    simp only [readField, readNumber, wire, if_true, zero] at here
    obtain rfl := Option.some.inj here
    refine .inr ⟨fun same => ?_, fun _ => rfl⟩
    obtain ⟨-, -, empty, -⟩ := Data.mk.inj same
    exact absurd empty (by decide)
  | int32_s | int64_s | bool_s =>
    simp only [Field.mark] at here wire
    simp only [readField, readNumber, wire, if_true, zero] at here
    obtain rfl := Option.some.inj here
    refine .inr ⟨fun same => ?_, fun _ => rfl⟩
    exact absurd (congrArg Data.value_s same) (List.cons_ne_nil _ _)
  | string =>
    simp only [Field.mark] at here wire
    simp only [readField, wire, if_true] at here
    rw [show pb.readString (pb.varint 1 ++ [0]) = (true, [0], []) from text] at here
    obtain rfl := Option.some.inj here
    refine .inr ⟨fun same => ?_, fun _ => rfl⟩
    exact absurd (congrArg Data.value same) (List.cons_ne_nil _ _)
  | string_s =>
    simp only [Field.mark] at here wire
    simp only [readField, wire, if_true] at here
    rw [show pb.readString (pb.varint 1 ++ [0]) = (true, [0], []) from text] at here
    obtain rfl := Option.some.inj here
    refine .inr ⟨fun same => ?_, fun _ => rfl⟩
    exact absurd (congrArg Data.value_s same) (List.cons_ne_nil _ _)
  | proto =>
    simp only [Field.mark] at here wire
    simp only [readField, wire, if_true] at here
    obtain ⟨message, -, here⟩ := Option.bind_eq_some_iff.1 here
    obtain ⟨⟨result, input', message'⟩, merged, here⟩ := Option.map_eq_some_iff.1 here
    cases fuel with
    | zero => cases merged
    | succ fuel =>
      rw [merge_zero] at merged
      cases merged
      rw [if_pos rfl] at here
      obtain rfl := here
      refine .inr ⟨fun same => ?_, fun next => by cases next⟩
      cases congrArg Data.proto_value same
  | proto_s =>
    simp only [Field.mark] at here wire
    simp only [readField, wire, if_true, List.append_nil, zero] at here
    split_ifs at here
    · obtain rfl := Option.some.inj here
      exact .inl rfl
    · obtain ⟨⟨result, input', message⟩, merged, here⟩ := Option.map_eq_some_iff.1 here
      cases fuel with
      | zero => cases merged
      | succ fuel =>
        simp only [CodedInputStream.pushLimit, List.take_nil, List.drop_nil, merge_nil] at merged
        cases merged
        rw [if_neg (by simp)] at here
        obtain rfl := here
        refine .inr ⟨fun same => ?_, fun _ => ?_⟩
        · exact absurd (congrArg Data.proto_value_s same) (List.cons_ne_nil _ _)
        · have same := CodedInputStream.popLimit_append [] [] later true (depth + 1)
          exact congrArg CodedInputStream.rest same

/-- **No message skips every field it does not have**: a number that is zero ends the message, and what comes behind it is lost. -/
theorem not_skipped (numbered : Numbered temp) (blank : Blank temp) (read : temp.type ≠ .other) {number : Int}
    (number_numbered : 1 ≤ number ∧ number < 2 ^ 29) (unknown : number ∉ (temp :: after).map Data.index) :
    ∃ fields : List Field, (∀ f ∈ fields, f.WellFormed pb) ∧
      Merges pb _proto_data_mgr ⟨fields.flatMap (Field.bytes pb), later, false, depth⟩ (temp :: after) true (temp :: after) ∧
      ¬ Merges pb _proto_data_mgr ⟨(fields.filter (Known (temp :: after) ·)).flatMap (Field.bytes pb), later, false, depth⟩
        (temp :: after) true (temp :: after) := by
  have wellFormed : Field.WellFormed pb ⟨number, .varint, pb.varint 0⟩ := .varint number_numbered (by decide)
  have mark : (Field.mark pb temp).WellFormed pb := Field.mark_wellFormed numbered
  have known : Known (temp :: after) (Field.mark pb temp) := by
    rw [Known, Field.mark_number]
    exact List.mem_cons_self
  refine ⟨[⟨number, .varint, pb.varint 0⟩, Field.mark pb temp], ?_, ?_, ?_⟩
  · exact List.forall_mem_cons.2 ⟨wellFormed, List.forall_mem_singleton.2 mark⟩
  · obtain ⟨nonzero, small, field, -⟩ := makeTag_field (f := ⟨number, .varint, pb.varint 0⟩) number_numbered
    refine ⟨2, ⟨(Field.mark pb temp).bytes pb, later, false, depth⟩, ?_⟩
    simp only [List.flatMap_cons, List.flatMap_nil, List.append_nil]
    rw [Field.bytes, List.append_assoc, merge_unknown (List.append_ne_nil_of_left_ne_nil (varint_ne_nil pb (by omega)) _)
      (pb.readVarint_varint _ _ (by omega)) (by rw [Nat.mod_eq_of_lt small]; exact nonzero)
      (by rw [Nat.mod_eq_of_lt small, field]; exact unknown), merge_zero]
  · have none' : ¬ decide (Known (temp :: after) ⟨number, .varint, pb.varint 0⟩) = true := by
      rw [decide_eq_true_eq]
      exact unknown
    rw [List.filter_cons_of_neg (p := fun f => Known (temp :: after) f) none',
      List.filter_cons_of_pos (p := fun f => Known (temp :: after) f) (decide_eq_true known), List.filter_nil, List.flatMap_cons,
      List.flatMap_nil, List.append_nil]
    exact mark_changes numbered blank read

end Zero

end GameServer.Proto

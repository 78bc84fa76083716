import GameServer.Lib.Worklist
import Mathlib.Algebra.Order.Ring.Int

/-!
# Values of the JSON library

What the converter uses of `Json::Value`, as its documentation has it: an array is the list of its elements, an object
a map that is never asked for its order, and a string is kept whole. A failed assertion is `none`. The floating point
types are opaque (`Floats`).
-/

namespace GameServer.Json

open GameServer.Lib

/-- `float` and `double` with the conversions that are used. -/
structure Floats where
  Float : Type
  Double : Type
  toDouble : Float → Double
  toFloat : Double → Float
  toFloat_toDouble : ∀ x, toFloat (toDouble x) = x
  ofInt : Int → Double
  floatOfInt : Int → Float
  /-- The integer that a `double` is, if `IsIntegral` holds of it. -/
  integer : Double → Option Int

inductive Value (F : Floats) where
  | null
  | int (n : Int64)
  | uint (n : UInt64)
  | real (x : F.Double)
  | string (s : String)
  | boolean (b : Bool)
  | array (elements : List (Value F))
  | object (members : List (String × Value F))

instance inhabitedValue {F : Floats} : Inhabited (Value F) := ⟨.null⟩

/-- What `operator[]` is applied to. -/
inductive Hop where
  | key (name : String)
  | index (i : Nat)
  deriving DecidableEq

def minInt : Int := -2 ^ 31
def maxInt : Int := 2 ^ 31 - 1
def maxUInt : Int := 2 ^ 32 - 1
def minInt64 : Int := -2 ^ 63
def maxInt64 : Int := 2 ^ 63 - 1
def maxUInt64 : Int := 2 ^ 64 - 1

/-- `value` for the member `key`, which is there. -/
def setMember {V : Type} (key : String) (value : V) : List (String × V) → List (String × V)
  | [] => []
  | (key', value') :: members =>
    if key' = key then (key', value) :: members else (key', value') :: setMember key value members

section Members

variable {V : Type} {key : String} {value : V} {members : List (String × V)}

theorem lookup_setMember (member : members.lookup key = some value) (u : V) :
    (setMember key u members).lookup key = some u := by
  induction members with
  | nil => cases member
  | cons e members ih =>
    obtain ⟨key', value'⟩ := e
    by_cases same : key' = key
    · simp [setMember, same]
    · have other : (key == key') = false := by simpa using fun e => same e.symm
      simp only [List.lookup_cons, other] at member
      simp only [setMember, same, if_false, List.lookup_cons, other]
      exact ih member

theorem setMember_setMember (u v : V) : setMember key v (setMember key u members) = setMember key v members := by
  induction members with
  | nil => rfl
  | cons e members ih =>
    obtain ⟨key', value'⟩ := e
    by_cases same : key' = key
    · simp [setMember, same]
    · simp [setMember, same, ih]

theorem lookup_append_of_some (member : members.lookup key = some value) (more : List (String × V)) :
    (members ++ more).lookup key = some value := by
  rw [List.lookup_append, member]
  rfl

theorem setMember_append (member : members.lookup key = some value) (u : V) (more : List (String × V)) :
    setMember key u (members ++ more) = setMember key u members ++ more := by
  induction members with
  | nil => cases member
  | cons e members ih =>
    obtain ⟨key', value'⟩ := e
    by_cases same : key' = key
    · simp [setMember, same]
    · have other : (key == key') = false := by simpa using fun e => same e.symm
      simp only [List.lookup_cons, other] at member
      simp [setMember, same, ih member]

theorem setMember_last (fresh : members.lookup key = none) (u v : V) :
    setMember key u (members ++ [(key, v)]) = members ++ [(key, u)] := by
  induction members with
  | nil => simp [setMember]
  | cons e members ih =>
    obtain ⟨key', value'⟩ := e
    by_cases same : key' = key
    · simp [same] at fresh
    · have other : (key == key') = false := by simpa using fun e => same e.symm
      simp only [List.lookup_cons, other] at fresh
      simp [setMember, same, ih fresh]

end Members

namespace Value

variable {F : Floats}

def get : Value F → Hop → Option (Value F)
  | .object members, .key name => members.lookup name
  | .array elements, .index i => elements[i]?
  | _, _ => none

def put : Value F → Hop → Value F → Value F
  | .object members, .key name, v => .object (setMember name v members)
  | .array elements, .index i, v => .array (elements.set i v)
  | json, _, _ => json

/-- Only objects and arrays have values inside. -/
theorem cases_of_get {t s : Value F} {h : Hop} (child : t.get h = some s) :
    (∃ members name, t = .object members ∧ h = .key name ∧ members.lookup name = some s) ∨
      ∃ elements i, t = .array elements ∧ h = .index i ∧ elements[i]? = some s := by
  match t, h with
  | .object members, .key name => exact .inl ⟨members, name, rfl, rfl, child⟩
  | .array elements, .index i => exact .inr ⟨elements, i, rfl, rfl, child⟩
  | .null, _ | .int _, _ | .uint _, _ | .real _, _ | .string _, _ | .boolean _, _ => simp [get] at child
  | .object _, .index _ | .array _, .key _ => simp [get] at child

/-- The values inside a value. -/
def places (F : Floats) : Places (Value F) Hop where
  get := get
  put := put
  get_put := by
    intro t h s u child
    rcases cases_of_get child with ⟨members, name, rfl, rfl, member⟩ | ⟨elements, i, rfl, rfl, element⟩
    · exact lookup_setMember member u
    · have inside : i < elements.length := (List.getElem?_eq_some_iff.1 element).1
      show (elements.set i u)[i]? = some u
      simp [inside]
  put_put := by
    intro t h s u v child
    match t, h with
    | .object members, .key name => exact congrArg Value.object (setMember_setMember u v)
    | .array elements, .index i => exact congrArg Value.array (List.set_set ..)
    | .null, _ | .int _, _ | .uint _, _ | .real _, _ | .string _, _ | .boolean _, _ => rfl
    | .object _, .index _ | .array _, .key _ => rfl

/-- `operator[]` makes the member or the element, `null`, if it is not there. -/
def resolveReference : Value F → Hop → Option (Value F)
  | .null, .key name => some (.object [(name, .null)])
  | .object members, .key name =>
    some (.object (if (members.lookup name).isSome then members else members ++ [(name, .null)]))
  | .null, .index i => some (.array (List.replicate (i + 1) .null))
  | .array elements, .index i => some (.array (elements ++ List.replicate (i + 1 - elements.length) .null))
  | _, _ => none

/-- `Json::Value& val = json[hop]` and what `body` does with `val`. -/
def subscript {W : Type} (json : Value F) (hop : Hop) (body : Value F → Option (Value F × List (W × List Hop))) :
    Option (Value F × List (W × List Hop)) := do
  let json ← json.resolveReference hop
  let val ← json.get hop
  let (val, pushed) ← body val
  some (json.put hop val, pushed.map (Prod.map id (hop :: ·)))

def isObject : Value F → Bool
  | .object _ => true
  | _ => false

def isMember (json : Value F) (name : String) : Bool := (json.get (.key name)).isSome

def size : Value F → Nat
  | .array elements => elements.length
  | .object members => members.length
  | _ => 0

/-- The integer of a value of one of the number types, where it is one. -/
def integer : Value F → Option Int
  | .int n => some n.toInt
  | .uint n => some n.toNat
  | .real x => F.integer x
  | _ => none

/-- `isInt`, `isUInt`, `isInt64` and `isUInt64` differ in their bounds. -/
def isIn (min max : Int) (json : Value F) : Bool := json.integer.any fun n => min ≤ n && n ≤ max

def isInt : Value F → Bool := isIn minInt maxInt
def isUInt : Value F → Bool := isIn 0 maxUInt
def isInt64 : Value F → Bool := isIn minInt64 maxInt64
def isUInt64 : Value F → Bool := isIn 0 maxUInt64

def isIntegral (json : Value F) : Bool := json.isInt64 || json.isUInt64

def isDouble : Value F → Bool
  | .real _ => true
  | json => json.isIntegral

def isNumeric (json : Value F) : Bool := json.isIntegral || json.isDouble

def isString : Value F → Bool
  | .string _ => true
  | _ => false

/-! The conversions are called only where the test above for their type has held, and their assertions with it. -/

def asLargest (json : Value F) : Int := json.integer.getD 0

def asInt (json : Value F) : Int32 := .ofInt json.asLargest
def asUInt (json : Value F) : UInt32 := .ofNat json.asLargest.toNat
def asInt64 (json : Value F) : Int64 := .ofInt json.asLargest
def asUInt64 (json : Value F) : UInt64 := .ofNat json.asLargest.toNat

def asDouble : Value F → F.Double
  | .real x => x
  | json => F.ofInt json.asLargest

def asFloat : Value F → F.Float
  | .real x => F.toFloat x
  | json => F.floatOfInt json.asLargest

def asString : Value F → String
  | .string s => s
  | _ => ""

theorem isIn_of_integer {json : Value F} {n min max : Int} (integer : json.integer = some n) (above : min ≤ n) (below : n ≤ max) :
    json.isIn min max = true := by
  simp [isIn, integer, above, below]

/-- The rule for a reference: what `body` yields for the member or the element is yielded inside. -/
theorem subscript_yields {W : Type} {visit : W → Value F → Option (Value F × List (W × List Hop))} {json made val now later : Value F}
    {hop : Hop} {body : Value F → Option (Value F × List (W × List Hop))} (made_eq : json.resolveReference hop = some made)
    (child : made.get hop = some val) (inner : Yields (places F) visit (body val) now later) :
    YieldsBelow (places F) visit (json.subscript hop body) (made.put hop now) (made.put hop later) := by
  obtain ⟨pushed, done, fills⟩ := inner
  refine ⟨pushed.map (Prod.map id (hop :: ·)), ?_, fills.inside (P := places F) child, ?_⟩
  · simp [subscript, made_eq, child, done]
  · intro task mem
    obtain ⟨task, -, rfl⟩ := List.mem_map.1 mem
    exact List.cons_ne_nil _ _

/-- The members of an object that is not made before its first member. -/
def ofMembers : List (String × Value F) → Value F
  | [] => .null
  | members => .object members

/-- The elements of an array that is not made before its first element. -/
def ofElements : List (Value F) → Value F
  | [] => .null
  | elements => .array elements

theorem get_ofMembers (members : List (String × Value F)) (name : String) :
    (ofMembers members).get (.key name) = members.lookup name := by
  cases members with
  | nil => rfl
  | cons => rfl

theorem get_ofElements (elements : List (Value F)) (i : Nat) : (ofElements elements).get (.index i) = elements[i]? := by
  cases elements with
  | nil => simp [ofElements, get]
  | cons => rfl

theorem size_ofElements (elements : List (Value F)) : (ofElements elements).size = elements.length := by
  cases elements with
  | nil => rfl
  | cons => rfl

theorem isObject_ofMembers {members : List (String × Value F)} {name : String} (member : (members.lookup name).isSome) :
    (ofMembers members).isObject = true := by
  cases members with
  | nil => simp at member
  | cons => rfl

/-- A new member. -/
def addMember (name : String) (v : Value F) : Value F → Value F
  | .null => .object [(name, v)]
  | .object members => .object (members ++ [(name, v)])
  | json => json

/-- A new last element. -/
def addElement (v : Value F) : Value F → Value F
  | .null => .array [v]
  | .array elements => .array (elements ++ [v])
  | json => json

theorem addMember_ofMembers (members : List (String × Value F)) (name : String) (v : Value F) :
    addMember name v (ofMembers members) = ofMembers (members ++ [(name, v)]) := by
  cases members with
  | nil => rfl
  | cons => rfl

theorem addElement_ofElements (elements : List (Value F)) (v : Value F) :
    addElement v (ofElements elements) = ofElements (elements ++ [v]) := by
  cases elements with
  | nil => rfl
  | cons => rfl

theorem extends_addMember (name : String) (v : Value F) : Extends (places F) (addMember name v) where
  get {t h s} child := by
    rcases cases_of_get child with ⟨members, other, rfl, rfl, member⟩ | ⟨elements, i, rfl, rfl, element⟩
    · exact lookup_append_of_some member _
    · exact child
  put {t h s} u child := by
    rcases cases_of_get child with ⟨members, other, rfl, rfl, member⟩ | ⟨elements, i, rfl, rfl, element⟩
    · exact congrArg Value.object (setMember_append member u _)
    · rfl

theorem extends_addElement (v : Value F) : Extends (places F) (addElement v) where
  get {t h s} child := by
    rcases cases_of_get child with ⟨members, other, rfl, rfl, member⟩ | ⟨elements, i, rfl, rfl, element⟩
    · exact child
    · have inside : i < elements.length := (List.getElem?_eq_some_iff.1 element).1
      exact (List.getElem?_append_left inside).trans element
  put {t h s} u child := by
    rcases cases_of_get child with ⟨members, other, rfl, rfl, member⟩ | ⟨elements, i, rfl, rfl, element⟩
    · rfl
    · have inside : i < elements.length := (List.getElem?_eq_some_iff.1 element).1
      exact congrArg Value.array (List.set_append_left i u inside)

/-- `operator[]` for a member that is not there. -/
theorem subscript_addMember {W : Type} {visit : W → Value F → Option (Value F × List (W × List Hop))} {now later : Value F}
    {members : List (String × Value F)} {name : String} {body : Value F → Option (Value F × List (W × List Hop))}
    (fresh : members.lookup name = none) (inner : Yields (places F) visit (body .null) now later) :
    YieldsBelow (places F) visit ((ofMembers members).subscript (.key name) body) (ofMembers (members ++ [(name, now)]))
      (addMember name later (ofMembers members)) := by
  have made_eq : (ofMembers members).resolveReference (.key name) = some (ofMembers (members ++ [(name, .null)])) := by
    cases members with
    | nil => rfl
    | cons e members => simp [ofMembers, resolveReference, fresh]
  have written : ∀ v, (ofMembers (members ++ [(name, .null)])).put (.key name) v = ofMembers (members ++ [(name, v)]) := by
    intro v
    have last := setMember_last fresh v .null
    cases members with
    | nil => simp [ofMembers, put, setMember]
    | cons e members => exact congrArg Value.object last
  have child : (ofMembers (members ++ [(name, .null)])).get (.key name) = some (.null : Value F) := by
    simp [get_ofMembers, List.lookup_append, fresh]
  have yields := subscript_yields made_eq child inner
  rwa [written, written, ← addMember_ofMembers members name later] at yields

/-- `operator[]` for the element after the last one. -/
theorem subscript_addElement {W : Type} {visit : W → Value F → Option (Value F × List (W × List Hop))} {now later : Value F}
    {body : Value F → Option (Value F × List (W × List Hop))} (elements : List (Value F))
    (inner : Yields (places F) visit (body .null) now later) :
    YieldsBelow (places F) visit ((ofElements elements).subscript (.index elements.length) body) (ofElements (elements ++ [now]))
      (addElement later (ofElements elements)) := by
  have made_eq : (ofElements elements).resolveReference (.index elements.length) = some (ofElements (elements ++ [.null])) := by
    cases elements with
    | nil => rfl
    | cons e elements => simp [ofElements, resolveReference]
  have written : ∀ v, (ofElements (elements ++ [.null])).put (.index elements.length) v = ofElements (elements ++ [v]) := by
    intro v
    cases elements with
    | nil => rfl
    | cons e elements => simp [ofElements, put]
  have child : (ofElements (elements ++ [.null])).get (.index elements.length) = some (.null : Value F) := by
    simp [get_ofElements]
  have yields := subscript_yields made_eq child inner
  rwa [written, written, ← addElement_ofElements elements later] at yields

end Value

end GameServer.Json

import GameServer.Json.Reader
import GameServer.Lib.Decimal

/-!
# Writing JSON texts

`Json::FastWriter` and `Json::StyledWriter`, for values without comments. What is appended to `document_` is the result of the fast
writer; the styled writer has more state, and looks at the end of its document.
-/

namespace GameServer.Json

open GameServer.Lib

section Strings

def isControlCharacter (ch : UInt8) : Bool := 0 < ch && ch ≤ 0x1F

def containsControlCharacter (str : List UInt8) : Bool := str.any isControlCharacter

/-- A digit of `std::hex` with `std::uppercase`. -/
def upperHex (n : Nat) : UInt8 := UInt8.ofNat (if n < 10 then 48 + n else 55 + n)

/-- A character inside the quotes. -/
def escapedText (c : UInt8) : List UInt8 :=
  if c = 34 then [92, 34]
  else if c = 92 then [92, 92]
  else if c = 8 then [92, 98]
  else if c = 12 then [92, 102]
  else if c = 10 then [92, 110]
  else if c = 13 then [92, 114]
  else if c = 9 then [92, 116]
  else if isControlCharacter c then [92, 117, 48, 48, upperHex (c.toNat / 16), upperHex (c.toNat % 16)]
  else [c]

def valueToQuotedString (value : CString) : List UInt8 :=
  if ¬ (value.chars.any fun c => c = 34 || c = 92 || c = 8 || c = 12 || c = 10 || c = 13 || c = 9) ∧
      ¬ containsControlCharacter value.chars then
    34 :: value.chars ++ [34]
  else 34 :: value.chars.flatMap escapedText ++ [34]

end Strings

variable {D : Doubles}

structure FastWriter where
  yamlCompatiblityEnabled_ : Bool
  dropNullPlaceholders_ : Bool

namespace FastWriter

variable (w : FastWriter)

mutual

def writeValue : TextValue D → List UInt8
  | .null => if w.dropNullPlaceholders_ then [] else literal "null"
  | .int n => intText n.toInt
  | .uint n => natText n.toNat
  | .real x => D.print x
  | .string s => valueToQuotedString s
  | .boolean b => literal (if b then "true" else "false")
  | .array elements => literal "[" ++ writeElements 0 elements ++ literal "]"
  | .object members => literal "\x7b" ++ writeMembers 0 members ++ literal "\x7d"

def writeElements (index : Nat) : List (TextValue D) → List UInt8
  | [] => []
  | v :: elements => (if 0 < index then literal "," else []) ++ writeValue v ++ writeElements (index + 1) elements

def writeMembers (index : Nat) : List (CString × TextValue D) → List UInt8
  | [] => []
  | (name, v) :: members =>
    (if 0 < index then literal "," else []) ++ valueToQuotedString name ++
      literal (if w.yamlCompatiblityEnabled_ then ": " else ":") ++ writeValue v ++ writeMembers (index + 1) members

end

end FastWriter

structure StyledWriter where
  childValues_ : List (List UInt8)
  document_ : List UInt8
  indentString_ : List UInt8
  addChildValues_ : Bool

namespace StyledWriter

def rightMargin_ : Nat := 74

def indentSize_ : Nat := 3

variable (w : StyledWriter)

def append (text : List UInt8) : StyledWriter := { w with document_ := w.document_ ++ text }

def pushValue (value : List UInt8) : StyledWriter :=
  if w.addChildValues_ then { w with childValues_ := w.childValues_ ++ [value] } else w.append value

def writeIndent : StyledWriter :=
  match w.document_.getLast? with
  | none => w.append w.indentString_
  | some last =>
    if last = 32 then w
    else if last ≠ 10 then (w.append [10]).append w.indentString_
    else w.append w.indentString_

def writeWithIndent (value : List UInt8) : StyledWriter := w.writeIndent.append value

def indent : StyledWriter := { w with indentString_ := w.indentString_ ++ List.replicate indentSize_ 32 }

def unindent : StyledWriter := { w with indentString_ := w.indentString_.take (w.indentString_.length - indentSize_) }

/-- An array or an object that is not empty. -/
def hasChildren : TextValue D → Bool
  | .array elements => !elements.isEmpty
  | .object members => !members.isEmpty
  | _ => false

/-- `isMultineArray`; `writeChildren` is its loop over the elements. -/
def isMultineArray (elements : List (TextValue D)) (writeChildren : Nat → StyledWriter → Nat × StyledWriter) : Bool × StyledWriter :=
  let w := { w with childValues_ := [] }
  if rightMargin_ ≤ elements.length * 3 ∨ elements.any hasChildren then (true, w)
  else
    let (lineLength, w) := writeChildren (4 + (elements.length - 1) * 2) { w with addChildValues_ := true }
    (rightMargin_ ≤ lineLength, { w with addChildValues_ := false })

/-- The elements on a single line. -/
def writeLine : (index : Nat) → List (List UInt8) → List UInt8
  | _, [] => []
  | index, text :: texts => (if 0 < index then literal ", " else []) ++ text ++ writeLine (index + 1) texts

mutual

def writeValue : TextValue D → StyledWriter → StyledWriter
  | .null, w => w.pushValue (literal "null")
  | .int n, w => w.pushValue (intText n.toInt)
  | .uint n, w => w.pushValue (natText n.toNat)
  | .real x, w => w.pushValue (D.print x)
  | .string s, w => w.pushValue (valueToQuotedString s)
  | .boolean b, w => w.pushValue (literal (if b then "true" else "false"))
  | .array elements, w =>
    if elements.isEmpty then w.pushValue (literal "[]")
    else
      let (isArrayMultiLine, w) := w.isMultineArray elements fun lineLength w => writeChildren elements 0 lineLength w
      if isArrayMultiLine then
        let w := (w.writeWithIndent (literal "[")).indent
        (writeElements elements (!w.childValues_.isEmpty) 0 w).unindent.writeWithIndent (literal "]")
      else w.append (literal "[ " ++ writeLine 0 w.childValues_ ++ literal " ]")
  | .object members, w =>
    if members.isEmpty then w.pushValue (literal "\x7b\x7d")
    else
      let w := (w.writeWithIndent (literal "\x7b")).indent
      (writeMembers members w).unindent.writeWithIndent (literal "\x7d")

/-- The loop of `isMultineArray` that writes the elements to `childValues_`. -/
def writeChildren : List (TextValue D) → (index lineLength : Nat) → StyledWriter → Nat × StyledWriter
  | [], _, lineLength, w => (lineLength, w)
  | v :: elements, index, lineLength, w =>
    let w := writeValue v w
    writeChildren elements (index + 1) (lineLength + (w.childValues_.getD index []).length) w

/-- The loop over the lines of an array. -/
def writeElements : List (TextValue D) → (hasChildValue : Bool) → (index : Nat) → StyledWriter → StyledWriter
  | [], _, _, w => w
  | v :: elements, hasChildValue, index, w =>
    let w := if hasChildValue then w.writeWithIndent (w.childValues_.getD index []) else writeValue v w.writeIndent
    if elements.isEmpty then w else writeElements elements hasChildValue (index + 1) (w.append (literal ","))

/-- The loop over the members of an object. -/
def writeMembers : List (CString × TextValue D) → StyledWriter → StyledWriter
  | [], w => w
  | (name, v) :: members, w =>
    let w := writeValue v ((w.writeWithIndent (valueToQuotedString name)).append (literal " : "))
    if members.isEmpty then w else writeMembers members (w.append (literal ","))

end

def write (root : TextValue D) : List UInt8 := (writeValue root ⟨[], [], [], false⟩).document_ ++ literal "\n"

end StyledWriter

end GameServer.Json

import GameServer.Lib.CString
import GameServer.Lib.OrderedMap
import Mathlib.Algebra.Ring.Int.Defs
import Mathlib.Algebra.Ring.Nat

/-!
# Reading JSON texts

`Json::Reader` of a text in memory. A place in the text is what is left of it from there on; at the end, `*current_` is the NUL behind
the text. The comments are skipped and not kept. The reader has no end of its own: the recursions are bounded by `fuel`, which is enough
in `parse` (`parse_report`).
-/

namespace GameServer.Json

open GameServer.Lib

/-- `double` and its conversions from and to text, `sscanf` with `"%lf"` and `sprintf` with `"%.16g"`. -/
structure Doubles where
  Double : Type
  scan : List UInt8 → Option Double
  print : Double → List UInt8

/-- A value with C strings; the members of an object are a `std::map`. -/
inductive TextValue (D : Doubles) where
  | null
  | int (n : Int64)
  | uint (n : UInt64)
  | real (x : D.Double)
  | string (s : CString)
  | boolean (b : Bool)
  | array (elements : List (TextValue D))
  | object (members : List (CString × TextValue D))

abbrev Location := List UInt8

inductive TokenType where
  | endOfStream
  | objectBegin
  | objectEnd
  | arrayBegin
  | arrayEnd
  | string
  | number
  | true
  | false
  | null
  | arraySeparator
  | memberSeparator
  | comment
  | error
  deriving DecidableEq, Repr

structure Token where
  type_ : TokenType
  start_ : Location
  end_ : Location

/-- `std::string( token.start_, token.end_ )`. -/
def Token.text (token : Token) : List UInt8 := token.start_.take (token.start_.length - token.end_.length)

structure ErrorInfo where
  token_ : Token
  message_ : List UInt8
  extra_ : Option Location

structure Features where
  allowComments_ : Bool
  strictRoot_ : Bool

structure Reader where
  current_ : Location
  errors_ : List ErrorInfo

def isSpace (c : UInt8) : Bool := c = 32 || c = 9 || c = 13 || c = 10

def isNumber (c : UInt8) : Bool := (48 ≤ c && c ≤ 57) || c = 46 || c = 101 || c = 69 || c = 43 || c = 45

/-- `match`, for a pattern of any length. -/
def matches' (pattern : List UInt8) (current : Location) : Bool × Location :=
  if pattern.isPrefixOf current then (true, current.drop pattern.length) else (false, current)

def readCStyleComment : Location → Bool × Location
  | [] => (false, [])
  | c :: rest => if c = 42 ∧ rest.head? = some 47 then (true, rest.tail) else readCStyleComment rest

def readCppStyleComment : Location → Bool × Location
  | [] => (true, [])
  | c :: rest => if c = 13 ∨ c = 10 then (true, rest) else readCppStyleComment rest

def readComment : Location → Bool × Location
  | [] => (false, [])
  | c :: rest => if c = 42 then readCStyleComment rest else if c = 47 then readCppStyleComment rest else (false, rest)

def readString : Location → Bool × Location
  | [] => (false, [])
  | c :: rest =>
    if c = 92 then
      match rest with
      | [] => (false, [])
      | _ :: rest => readString rest
    else if c = 34 then (true, rest)
    else readString rest

/-- The token of a kind, or an error if it was not read to its end. -/
def ended (type_ : TokenType) (start_ : Location) (read : Bool × Location) : Token := ⟨if read.1 then type_ else .error, start_, read.2⟩

def readToken (current : Location) : Token :=
  let start_ := current.dropWhile isSpace
  match start_ with
  | [] => ⟨.endOfStream, [], []⟩
  | c :: rest =>
    if c = 123 then ⟨.objectBegin, start_, rest⟩
    else if c = 125 then ⟨.objectEnd, start_, rest⟩
    else if c = 91 then ⟨.arrayBegin, start_, rest⟩
    else if c = 93 then ⟨.arrayEnd, start_, rest⟩
    else if c = 34 then ended .string start_ (readString rest)
    else if c = 47 then ended .comment start_ (readComment rest)
    else if (48 ≤ c ∧ c ≤ 57) ∨ c = 45 then ⟨.number, start_, rest.dropWhile isNumber⟩
    else if c = 116 then ended .true start_ (matches' (literal "rue") rest)
    else if c = 102 then ended .false start_ (matches' (literal "alse") rest)
    else if c = 110 then ended .null start_ (matches' (literal "ull") rest)
    else if c = 44 then ⟨.arraySeparator, start_, rest⟩
    else if c = 58 then ⟨.memberSeparator, start_, rest⟩
    else if c = 0 then ⟨.endOfStream, start_, rest⟩
    else ⟨.error, start_, rest⟩

/-- `readToken` again as long as it reads comments, of which there are so many at most. -/
def readTokens : Nat → Location → Token
  | 0, current => readToken current
  | n + 1, current => if (readToken current).type_ = .comment then readTokens n (readToken current).end_ else readToken current

def nextToken (current : Location) : Token := readTokens current.length current

def Features.skipCommentTokens (features_ : Features) (current : Location) : Token :=
  if features_.allowComments_ then nextToken current else readToken current

/-- The loop of `recoverFromError`. -/
def recoverLoop (skipUntilToken : TokenType) : Nat → Location → Location
  | 0, current => current
  | n + 1, current =>
    let skip := readToken current
    if skip.type_ = skipUntilToken ∨ skip.type_ = .endOfStream then skip.end_ else recoverLoop skipUntilToken n skip.end_

namespace Reader

variable (r : Reader)

def addError (message : List UInt8) (token : Token) : Reader := { r with errors_ := r.errors_ ++ [⟨token, message, none⟩] }

def recoverFromError (skipUntilToken : TokenType) : Reader :=
  { r with current_ := recoverLoop skipUntilToken (r.current_.length + 1) r.current_ }

def addErrorAndRecover (message : List UInt8) (token : Token) (skipUntilToken : TokenType) : Reader :=
  (r.addError message token).recoverFromError skipUntilToken

end Reader

section Numbers

variable {D : Doubles}

def notANumber (token : Token) : List UInt8 := literal "'" ++ token.text ++ literal "' is not a number."

def decodeDouble (token : Token) : Except ErrorInfo (TextValue D) :=
  match D.scan token.text with
  | none => .error ⟨token, notANumber token, none⟩
  | some value => .ok (.real value)

/-- The loop over the digits; `none` is a number that is too large, and the first failure is a character that is no digit. -/
def decodeDigits (maxIntegerValue : Nat) : List UInt8 → Nat → Except Unit (Option Nat)
  | [], value => .ok (some value)
  | c :: current, value =>
    if c < 48 ∨ c > 57 then .error ()
    else
      let digit := (c - 48).toNat
      if maxIntegerValue / 10 ≤ value ∧ (maxIntegerValue / 10 < value ∨ current ≠ [] ∨ maxIntegerValue % 10 < digit) then .ok none
      else decodeDigits maxIntegerValue current (value * 10 + digit)

def decodeNumber (token : Token) : Except ErrorInfo (TextValue D) :=
  let isDouble := token.text.any (fun c => c = 46 || c = 101 || c = 69 || c = 43) || token.text.tail.any (· = 45)
  if isDouble then decodeDouble token
  else
    let isNegative := token.text.head? = some 45
    match decodeDigits (if isNegative then 2 ^ 63 else 2 ^ 64 - 1) (if isNegative then token.text.tail else token.text) 0 with
    | .error _ => .error ⟨token, notANumber token, none⟩
    | .ok none => decodeDouble token
    | .ok (some value) =>
      if isNegative then .ok (.int (Int64.ofInt (-value)))
      else if value ≤ 2 ^ 31 - 1 then .ok (.int (Int64.ofInt value))
      else .ok (.uint (UInt64.ofNat value))

end Numbers

section Strings

/-- The bytes of a character; there is none for what is no code point. -/
def codePointToUTF8 (cp : Nat) : List UInt8 :=
  if cp ≤ 0x7F then [UInt8.ofNat cp]
  else if cp ≤ 0x7FF then [UInt8.ofNat (0xC0 ||| (0x1F &&& cp >>> 6)), UInt8.ofNat (0x80 ||| (0x3F &&& cp))]
  else if cp ≤ 0xFFFF then
    [UInt8.ofNat (0xE0 ||| (0xF &&& cp >>> 12)), UInt8.ofNat (0x80 ||| (0x3F &&& cp >>> 6)), UInt8.ofNat (0x80 ||| (0x3F &&& cp))]
  else if cp ≤ 0x10FFFF then
    [UInt8.ofNat (0xF0 ||| (0x7 &&& cp >>> 18)), UInt8.ofNat (0x80 ||| (0x3F &&& cp >>> 12)),
      UInt8.ofNat (0x80 ||| (0x3F &&& cp >>> 6)), UInt8.ofNat (0x80 ||| (0x3F &&& cp))]
  else []

def hexDigit (c : UInt8) : Option Nat :=
  if 48 ≤ c ∧ c ≤ 57 then some (c - 48).toNat
  else if 97 ≤ c ∧ c ≤ 102 then some ((c - 97).toNat + 10)
  else if 65 ≤ c ∧ c ≤ 70 then some ((c - 65).toNat + 10)
  else none

/-- So many digits; a place inside the string is `current` in front of `last`. -/
def hexDigits (token : Token) (last : Location) : Nat → Nat → List UInt8 → Except ErrorInfo (Nat × List UInt8)
  | 0, unicode, current => .ok (unicode, current)
  | _ + 1, unicode, [] => .ok (unicode, [])
  | index + 1, unicode, c :: current =>
    match hexDigit c with
    | some digit => hexDigits token last index (unicode * 16 + digit) current
    | none =>
      .error ⟨token, literal "Bad unicode escape sequence in string: hexadecimal digit expected.", some (current ++ last)⟩

def decodeUnicodeEscapeSequence (token : Token) (last : Location) (current : List UInt8) : Except ErrorInfo (Nat × List UInt8) :=
  if current.length < 4 then
    .error ⟨token, literal "Bad unicode escape sequence in string: four digits expected.", some (current ++ last)⟩
  else hexDigits token last 4 0 current

def decodeUnicodeCodePoint (token : Token) (last : Location) (current : List UInt8) : Except ErrorInfo (Nat × List UInt8) := do
  let (unicode, current) ← decodeUnicodeEscapeSequence token last current
  if 0xD800 ≤ unicode ∧ unicode ≤ 0xDBFF then
    if current.length < 6 then
      .error ⟨token, literal "additional six characters expected to parse unicode surrogate pair.", some (current ++ last)⟩
    else if current.head? = some 92 ∧ current.tail.head? = some 117 then do
      let (surrogatePair, current) ← decodeUnicodeEscapeSequence token last (current.drop 2)
      .ok (0x10000 + ((unicode &&& 0x3FF) <<< 10) + (surrogatePair &&& 0x3FF), current)
    else
      let extra := if current.head? = some 92 then current.drop 2 else current.tail
      .error ⟨token, literal "expecting another \\u token to begin the second half of a unicode surrogate pair", some (extra ++ last)⟩
  else .ok (unicode, current)

/-- What an escape other than `u` stands for. -/
def escaped (escape : UInt8) : Option UInt8 :=
  if escape = 34 ∨ escape = 47 ∨ escape = 92 then some escape
  else if escape = 98 then some 8
  else if escape = 102 then some 12
  else if escape = 110 then some 10
  else if escape = 114 then some 13
  else if escape = 116 then some 9
  else none

def decodeLoop (token : Token) (last : Location) : Nat → List UInt8 → List UInt8 → Except ErrorInfo (List UInt8)
  | 0, _, decoded => .ok decoded
  | _ + 1, [], decoded => .ok decoded
  | n + 1, c :: current, decoded =>
    if c = 34 then .ok decoded
    else if c = 92 then
      match current with
      | [] => .error ⟨token, literal "Empty escape sequence in string", some last⟩
      | escape :: current =>
        if escape = 117 then do
          let (unicode, current) ← decodeUnicodeCodePoint token last current
          decodeLoop token last n current (decoded ++ codePointToUTF8 unicode)
        else
          match escaped escape with
          | some c => decodeLoop token last n current (decoded ++ [c])
          | none => .error ⟨token, literal "Bad escape sequence in string", some (current ++ last)⟩
    else decodeLoop token last n current (decoded ++ [c])

/-- `decodeString`; the quotes are left out. -/
def decodeString (token : Token) : Except ErrorInfo (List UInt8) :=
  let current := token.text.tail.dropLast
  decodeLoop token (token.start_.drop (token.text.length - 1)) current.length current []

end Strings

section Values

variable {D : Doubles} (features_ : Features)

/-- What is assigned to the current value, or an error. -/
def Reader.assign (r : Reader) (currentValue : TextValue D) : Except ErrorInfo (TextValue D) → Bool × TextValue D × Reader
  | .ok value => (true, value, r)
  | .error info => (false, currentValue, { r with errors_ := r.errors_ ++ [info] })

mutual

def readValue : (fuel : Nat) → (currentValue : TextValue D) → Reader → Option (Bool × TextValue D × Reader)
  | 0, _, _ => none
  | fuel + 1, currentValue, r =>
    let token := features_.skipCommentTokens r.current_
    let r : Reader := { r with current_ := token.end_ }
    match token.type_ with
    | .objectBegin => readObject fuel [] [] r
    | .arrayBegin =>
      let start_ := r.current_.dropWhile isSpace
      if start_.head? = some 93 then some (true, .array [], { r with current_ := (readToken start_).end_ })
      else readArray fuel [] { r with current_ := start_ }
    | .number => some (r.assign currentValue (decodeNumber token))
    | .string => some (r.assign currentValue ((decodeString token).map fun decoded => .string (CString.of decoded)))
    | .true => some (true, .boolean true, r)
    | .false => some (true, .boolean false, r)
    | .null => some (true, .null, r)
    | _ => some (false, currentValue, r.addError (literal "Syntax error: value, object or array expected.") token)

/-- The loop over the members, after the member `name`. -/
def readObject : (fuel : Nat) → (name : List UInt8) → (members : List (CString × TextValue D)) → Reader →
    Option (Bool × TextValue D × Reader)
  | 0, _, _, _ => none
  | fuel + 1, name, members, r =>
    let tokenName := nextToken r.current_
    let r : Reader := { r with current_ := tokenName.end_ }
    if tokenName.type_ = .objectEnd ∧ name = [] then some (true, .object members, r)
    else if tokenName.type_ ≠ .string then
      some (false, .object members, r.addErrorAndRecover (literal "Missing '\x7d' or object member name") tokenName .objectEnd)
    else
      match decodeString tokenName with
      | .error info =>
        some (false, .object members, Reader.recoverFromError { r with errors_ := r.errors_ ++ [info] } .objectEnd)
      | .ok name =>
        let colon := readToken r.current_
        let r : Reader := { r with current_ := colon.end_ }
        if colon.type_ ≠ .memberSeparator then
          some (false, .object members, r.addErrorAndRecover (literal "Missing ':' after object member name") colon .objectEnd)
        else do
          let key := CString.of name
          let (ok, value, r) ← readValue fuel ((members.lookup key).getD .null) r
          let members := OrderedMap.setList key value members
          if !ok then some (false, .object members, r.recoverFromError .objectEnd)
          else
            let comma := readToken r.current_
            if comma.type_ ≠ .objectEnd ∧ comma.type_ ≠ .arraySeparator ∧ comma.type_ ≠ .comment then
              some (false, .object members, Reader.addErrorAndRecover { r with current_ := comma.end_ }
                (literal "Missing ',' or '\x7d' in object declaration") comma .objectEnd)
            else
              let comma := nextToken r.current_
              let r : Reader := { r with current_ := comma.end_ }
              if comma.type_ = .objectEnd then some (true, .object members, r) else readObject fuel name members r

/-- The loop over the elements. -/
def readArray : (fuel : Nat) → (elements : List (TextValue D)) → Reader → Option (Bool × TextValue D × Reader)
  | 0, _, _ => none
  | fuel + 1, elements, r => do
    let (ok, value, r) ← readValue fuel .null r
    let elements := elements ++ [value]
    if !ok then some (false, .array elements, r.recoverFromError .arrayEnd)
    else
      let token := nextToken r.current_
      let r : Reader := { r with current_ := token.end_ }
      if token.type_ ≠ .arraySeparator ∧ token.type_ ≠ .arrayEnd then
        some (false, .array elements, r.addErrorAndRecover (literal "Missing ',' or ']' in array declaration") token .arrayEnd)
      else if token.type_ = .arrayEnd then some (true, .array elements, r)
      else readArray fuel elements r

end

def TextValue.isContainer : TextValue D → Bool
  | .array _ => true
  | .object _ => true
  | _ => false

def parse (document_ : List UInt8) (root : TextValue D) : Option (Bool × TextValue D × Reader) := do
  let (successful, root, r) ← readValue features_ (2 * document_.length + 2) root ⟨document_, []⟩
  let r : Reader := { r with current_ := (features_.skipCommentTokens r.current_).end_ }
  if features_.strictRoot_ ∧ ¬ root.isContainer then
    some (false, root, r.addError (literal "A valid JSON document must be either an array or an object value.") ⟨.error, document_, []⟩)
  else some (successful, root, r)

end Values

section Tokens

variable {current rest doc doc' : Location} {c : UInt8} {t : Token} {e : ErrorInfo}

/-- A token of the text from `current` on. -/
structure Token.Within (t : Token) (current : Location) : Prop where
  start : t.start_ <:+ current
  finish : t.end_ <:+ t.start_
  moved : t.type_ ≠ .endOfStream → t.end_.length < t.start_.length

/-- The error shows places of the text. -/
structure ErrorInfo.Within (e : ErrorInfo) (doc : Location) : Prop where
  start : e.token_.start_ <:+ doc
  finish : e.token_.end_ <:+ e.token_.start_
  extra : ∀ l ∈ e.extra_, l <:+ doc

theorem ErrorInfo.Within.trans (within : e.Within doc) (suffix : doc <:+ doc') : e.Within doc' :=
  ⟨within.start.trans suffix, within.finish, fun l mem => (within.extra l mem).trans suffix⟩

theorem Token.Within.trans (within : t.Within doc) (suffix : doc <:+ doc') : t.Within doc' :=
  ⟨within.start.trans suffix, within.finish, within.moved⟩

theorem Token.Within.end_suffix (within : t.Within current) : t.end_ <:+ current := within.finish.trans within.start

theorem Token.Within.end_length_le (within : t.Within current) : t.end_.length ≤ current.length := within.end_suffix.length_le

theorem Token.Within.end_length_lt (within : t.Within current) (goes : t.type_ ≠ .endOfStream) : t.end_.length < current.length :=
  lt_of_lt_of_le (within.moved goes) within.start.length_le

theorem readCStyleComment_suffix (current : Location) : (readCStyleComment current).2 <:+ current := by
  induction current with
  | nil => exact List.suffix_refl _
  | cons c rest ih =>
    rw [readCStyleComment]
    split_ifs
    · exact (List.tail_suffix rest).trans (List.suffix_cons c rest)
    · exact ih.trans (List.suffix_cons c rest)

theorem readCppStyleComment_suffix (current : Location) : (readCppStyleComment current).2 <:+ current := by
  induction current with
  | nil => exact List.suffix_refl _
  | cons c rest ih =>
    rw [readCppStyleComment]
    split_ifs
    · exact List.suffix_cons c rest
    · exact ih.trans (List.suffix_cons c rest)

theorem readComment_suffix (current : Location) : (readComment current).2 <:+ current := by
  cases current with
  | nil => exact List.suffix_refl _
  | cons c rest =>
    rw [readComment]
    split_ifs
    · exact (readCStyleComment_suffix rest).trans (List.suffix_cons c rest)
    · exact (readCppStyleComment_suffix rest).trans (List.suffix_cons c rest)
    · exact List.suffix_cons c rest

theorem readString_suffix (current : Location) : (readString current).2 <:+ current := by
  fun_induction readString current with
  | case1 => exact List.suffix_refl _
  | case2 => exact List.nil_suffix
  | case3 next rest ih => exact ih.trans ((List.suffix_cons next rest).trans (List.suffix_cons _ _))
  | case4 c rest => exact List.suffix_cons _ _
  | case5 c rest _ _ ih => exact ih.trans (List.suffix_cons _ _)

theorem matches'_suffix (pattern : List UInt8) (current : Location) : (matches' pattern current).2 <:+ current := by
  rw [matches']
  split_ifs
  · exact List.drop_suffix _ _
  · exact List.suffix_refl _

/-- A token begins behind the spaces. -/
theorem readToken_cons (start : current.dropWhile isSpace = c :: rest) :
    (readToken current).start_ = c :: rest ∧ (readToken current).end_ <:+ rest := by
  let Here (t : Token) : Prop := t.start_ = c :: rest ∧ t.end_ <:+ rest
  have plain : ∀ type_, Here ⟨type_, c :: rest, rest⟩ := fun _ => ⟨rfl, List.suffix_refl _⟩
  have read : ∀ type_ read, read.2 <:+ rest → Here (ended type_ (c :: rest) read) := fun _ _ suffix => ⟨rfl, suffix⟩
  show Here (readToken current)
  rw [readToken, start]
  apply iteInduction (fun _ => plain _) fun _ => ?_
  apply iteInduction (fun _ => plain _) fun _ => ?_
  apply iteInduction (fun _ => plain _) fun _ => ?_
  apply iteInduction (fun _ => plain _) fun _ => ?_
  apply iteInduction (fun _ => read _ _ (readString_suffix rest)) fun _ => ?_
  apply iteInduction (fun _ => read _ _ (readComment_suffix rest)) fun _ => ?_
  apply iteInduction (fun _ => ⟨rfl, List.dropWhile_suffix _⟩) fun _ => ?_
  apply iteInduction (fun _ => read _ _ (matches'_suffix _ rest)) fun _ => ?_
  apply iteInduction (fun _ => read _ _ (matches'_suffix _ rest)) fun _ => ?_
  apply iteInduction (fun _ => read _ _ (matches'_suffix _ rest)) fun _ => ?_
  apply iteInduction (fun _ => plain _) fun _ => ?_
  apply iteInduction (fun _ => plain _) fun _ => ?_
  exact iteInduction (fun _ => plain _) fun _ => plain _

theorem readToken_nil (start : current.dropWhile isSpace = []) : readToken current = ⟨.endOfStream, [], []⟩ := by
  rw [readToken, start]

theorem readToken_within (current : Location) : (readToken current).Within current := by
  have spaces : current.dropWhile isSpace <:+ current := List.dropWhile_suffix _
  cases start : current.dropWhile isSpace with
  | nil =>
    rw [readToken_nil start]
    exact ⟨List.nil_suffix, List.suffix_refl _, fun goes => absurd rfl goes⟩
  | cons c rest =>
    obtain ⟨here, suffix⟩ := readToken_cons start
    refine ⟨?_, ?_, ?_⟩
    · rw [here, ← start]
      exact spaces
    · rw [here]
      exact suffix.trans (List.suffix_cons c rest)
    · intro _
      rw [here, List.length_cons]
      exact Nat.lt_succ_of_le suffix.length_le

theorem readTokens_within (n : Nat) (current : Location) : (readTokens n current).Within current := by
  induction n generalizing current with
  | zero => exact readToken_within current
  | succ n ih =>
    rw [readTokens]
    split_ifs
    · exact (ih _).trans (readToken_within current).end_suffix
    · exact readToken_within current

theorem nextToken_within (current : Location) : (nextToken current).Within current := readTokens_within _ current

theorem skipCommentTokens_within (features_ : Features) (current : Location) : (features_.skipCommentTokens current).Within current := by
  rw [Features.skipCommentTokens]
  split_ifs
  · exact nextToken_within current
  · exact readToken_within current

theorem readTokens_type (n : Nat) (current : Location) (enough : current.length ≤ n) : (readTokens n current).type_ ≠ .comment := by
  induction n generalizing current with
  | zero =>
    rw [List.length_eq_zero_iff.1 (Nat.le_zero.1 enough)]
    decide
  | succ n ih =>
    rw [readTokens]
    split_ifs with comment
    · apply ih
      have moved := (readToken_within current).end_length_lt (by rw [comment]; decide)
      omega
    · exact comment

/-- The comments are passed over. -/
theorem nextToken_type (current : Location) : (nextToken current).type_ ≠ .comment := readTokens_type _ current (Nat.le_refl _)

theorem recoverLoop_suffix (skipUntilToken : TokenType) (n : Nat) (current : Location) :
    recoverLoop skipUntilToken n current <:+ current := by
  induction n generalizing current with
  | zero => exact List.suffix_refl _
  | succ n ih =>
    have within := readToken_within current
    rw [recoverLoop]
    split_ifs
    · exact within.end_suffix
    · exact (ih _).trans within.end_suffix

end Tokens

section Errors

variable {D : Doubles} {token : Token} {last current current' decoded bytes : List UInt8} {doc : Location} {e : ErrorInfo}
  {unicode unicode' n : Nat}

/-- An error at a place of the string. -/
def AtPlace (token : Token) (last current : List UInt8) (e : ErrorInfo) : Prop :=
  e.token_ = token ∧ ∃ x, x <:+ current ∧ e.extra_ = some (x ++ last)

theorem AtPlace.trans (atPlace : AtPlace token last current e) (suffix : current <:+ current') : AtPlace token last current' e := by
  obtain ⟨same, x, within, extra⟩ := atPlace
  exact ⟨same, x, within.trans suffix, extra⟩

theorem hexDigits_place : match hexDigits token last n unicode current with
    | .ok read => read.2 <:+ current
    | .error e => AtPlace token last current e := by
  induction n generalizing unicode current with
  | zero => exact List.suffix_refl _
  | succ n ih =>
    cases current with
    | nil => exact List.suffix_refl _
    | cons c current =>
      rw [hexDigits]
      cases hexDigit c with
      | none => exact ⟨rfl, current, List.suffix_cons c current, rfl⟩
      | some digit =>
        have others := @ih current (unicode * 16 + digit)
        dsimp only
        cases read : hexDigits token last n (unicode * 16 + digit) current with
        | ok result =>
          rw [read] at others
          exact others.trans (List.suffix_cons c current)
        | error e =>
          rw [read] at others
          exact others.trans (List.suffix_cons c current)

theorem escapeSequence_place : match decodeUnicodeEscapeSequence token last current with
    | .ok read => read.2 <:+ current
    | .error e => AtPlace token last current e := by
  rw [decodeUnicodeEscapeSequence]
  split_ifs
  · exact ⟨rfl, current, List.suffix_refl _, rfl⟩
  · exact hexDigits_place

theorem codePoint_place : match decodeUnicodeCodePoint token last current with
    | .ok read => read.2 <:+ current
    | .error e => AtPlace token last current e := by
  have first := @escapeSequence_place token last current
  rw [decodeUnicodeCodePoint]
  cases read : decodeUnicodeEscapeSequence token last current with
  | error e =>
    rw [read] at first
    exact first
  | ok result =>
    obtain ⟨unicode, rest⟩ := result
    rw [read] at first
    show match (if 0xD800 ≤ unicode ∧ unicode ≤ 0xDBFF then _ else _ : Except ErrorInfo (Nat × List UInt8)) with
      | .ok read => read.2 <:+ current
      | .error e => AtPlace token last current e
    split_ifs with surrogate few pair slash
    · exact ⟨rfl, rest, first, rfl⟩
    · have second := @escapeSequence_place token last (rest.drop 2)
      have inside := (List.drop_suffix 2 rest).trans first
      cases read' : decodeUnicodeEscapeSequence token last (rest.drop 2) with
      | error e =>
        rw [read'] at second
        exact second.trans inside
      | ok result' =>
        rw [read'] at second
        exact second.trans inside
    · exact ⟨rfl, _, (List.drop_suffix 2 rest).trans first, rfl⟩
    · exact ⟨rfl, _, (List.tail_suffix rest).trans first, rfl⟩
    · exact first

theorem decodeLoop_place (failed : decodeLoop token last n current decoded = .error e) : AtPlace token last current e := by
  induction n generalizing current decoded with
  | zero => cases failed
  | succ n ih =>
    cases current with
    | nil => cases failed
    | cons c current =>
      unfold decodeLoop at failed
      have here : current <:+ c :: current := List.suffix_cons c current
      split_ifs at failed
      · cases current with
        | nil =>
          cases failed
          exact ⟨rfl, [], List.nil_suffix, rfl⟩
        | cons escape current =>
          have behind : current <:+ c :: escape :: current := (List.suffix_cons escape current).trans here
          dsimp only at failed
          split_ifs at failed
          · have point := @codePoint_place token last current
            cases read : decodeUnicodeCodePoint token last current with
            | error e' =>
              rw [read] at failed point
              cases failed
              exact point.trans behind
            | ok result =>
              rw [read] at failed point
              exact (ih failed).trans (point.trans behind)
          · cases what : escaped escape with
            | none =>
              rw [what] at failed
              cases failed
              exact ⟨rfl, current, behind, rfl⟩
            | some c' =>
              rw [what] at failed
              exact (ih failed).trans behind
      · exact (ih failed).trans here

theorem inside_suffix {text start : List UInt8} (before : text <+: start) :
    text.tail.dropLast ++ start.drop (text.length - 1) <:+ start := by
  obtain ⟨rest, rfl⟩ := before
  cases text with
  | nil => exact List.suffix_refl _
  | cons a text =>
    rcases List.eq_nil_or_concat text with rfl | ⟨inner, b, rfl⟩
    · exact List.suffix_refl _
    · refine ⟨[a], ?_⟩
      simp

theorem decodeString_within (within : token.Within doc) (failed : decodeString token = .error e) : e.Within doc := by
  obtain ⟨rfl, x, inside, extra⟩ := decodeLoop_place failed
  refine ⟨within.start, within.finish, ?_⟩
  intro l mem
  obtain rfl := Option.mem_unique mem extra
  have before : e.token_.text <+: e.token_.start_ := List.take_prefix _ _
  have string := inside_suffix before
  obtain ⟨front, same⟩ := inside
  refine (List.IsSuffix.trans ⟨front, ?_⟩ string).trans within.start
  rw [← same, List.append_assoc]

theorem notANumber_within (within : token.Within doc) : ErrorInfo.Within ⟨token, notANumber token, none⟩ doc :=
  ⟨within.start, within.finish, fun _ none' => by cases none'⟩

theorem decodeDouble_within (within : token.Within doc) (failed : decodeDouble (D := D) token = .error e) : e.Within doc := by
  rw [decodeDouble] at failed
  split at failed
  · cases failed
    exact notANumber_within within
  · cases failed

theorem decodeNumber_within (within : token.Within doc) (failed : decodeNumber (D := D) token = .error e) : e.Within doc := by
  unfold decodeNumber at failed
  dsimp only at failed
  split_ifs at failed with double negative
  · exact decodeDouble_within within failed
  · split at failed
    · cases failed
      exact notANumber_within within
    · exact decodeDouble_within within failed
    · cases failed
  · split at failed
    · cases failed
      exact notANumber_within within
    · exact decodeDouble_within within failed
    · split_ifs at failed

end Errors

section Reports

variable {D : Doubles} {features_ : Features} {r r' r'' : Reader} {ok : Bool} {value value' : TextValue D} {fuel n : Nat}
  {name bytes : List UInt8} {members : List (CString × TextValue D)} {elements : List (TextValue D)} {token : Token} {message : List UInt8}
  {type_ : TokenType} {e : ErrorInfo}

/-- A value as the reader makes it: a number is unsigned if and only if it is beyond `int`, and the members of every object are in the
order of a map. -/
inductive TextValue.Normal : TextValue D → Prop where
  | null : Normal .null
  | int {n : Int64} (small : n.toInt < 2 ^ 31) : Normal (.int n)
  | uint {n : UInt64} (large : 2 ^ 31 ≤ n.toNat) : Normal (.uint n)
  | real (x : D.Double) : Normal (.real x)
  | string (s : CString) : Normal (.string s)
  | boolean (b : Bool) : Normal (.boolean b)
  | array {elements : List (TextValue D)} (inside : ∀ v ∈ elements, Normal v) : Normal (.array elements)
  | object {members : List (CString × TextValue D)} (sorted : members.Pairwise fun a b => a.1 < b.1)
      (inside : ∀ m ∈ members, Normal m.2) : Normal (.object members)

/-- What a step of the reader does: it reads on, and fails if and only if it reports errors about what it read. -/
structure Report (r r' : Reader) (ok : Bool) : Prop where
  suffix : r'.current_ <:+ r.current_
  moved : ok = true → r'.current_.length < r.current_.length
  errors : ∃ more, r'.errors_ = r.errors_ ++ more ∧ (ok = true ↔ more = []) ∧ ∀ e ∈ more, e.Within r.current_

theorem Report.done (suffix : r'.current_ <:+ r.current_) (moved : r'.current_.length < r.current_.length)
    (same : r'.errors_ = r.errors_) : Report r r' true :=
  ⟨suffix, fun _ => moved, [], by rw [same, List.append_nil], iff_of_true rfl rfl, fun _ none' => by cases none'⟩

theorem Report.failed (suffix : r'.current_ <:+ r.current_) (same : r'.errors_ = r.errors_ ++ [e]) (within : e.Within r.current_) :
    Report r r' false := by
  refine ⟨suffix, fun ok => absurd ok Bool.false_ne_true, [e], same, iff_of_false Bool.false_ne_true (List.cons_ne_nil _ _), ?_⟩
  intro e' mem
  rw [List.mem_singleton.1 mem]
  exact within

/-- A step after one that succeeded. -/
theorem Report.after (second : Report r' r'' ok) (suffix : r'.current_ <:+ r.current_) (same : r'.errors_ = r.errors_) :
    Report r r'' ok := by
  obtain ⟨more, errors, iff, within⟩ := second.errors
  refine ⟨second.suffix.trans suffix, ?_, more, ?_, iff, ?_⟩
  · intro ok
    exact lt_of_lt_of_le (second.moved ok) suffix.length_le
  · rw [errors, same]
  · intro e mem
    exact (within e mem).trans suffix

/-- The errors of a value inside are those of the whole. -/
theorem Report.recover (inner : Report r r' false) (type_ : TokenType) : Report r (r'.recoverFromError type_) false :=
  ⟨(recoverLoop_suffix _ _ _).trans inner.suffix, fun ok => absurd ok Bool.false_ne_true, inner.errors⟩

theorem Report.of_ok (report : Report r r' true) : r'.errors_ = r.errors_ := by
  obtain ⟨more, errors, iff, -⟩ := report.errors
  rw [errors, iff.1 rfl, List.append_nil]

theorem Report.expected (r' : Reader) (within : token.Within r.current_) (here : r'.current_ <:+ r.current_) (same : r'.errors_ = r.errors_)
    (message : List UInt8) (type_ : TokenType) : Report r (r'.addErrorAndRecover message token type_) false := by
  refine .failed (e := ⟨token, message, none⟩) ((recoverLoop_suffix _ _ _).trans here) ?_ ?_
  · show r'.errors_ ++ _ = _
    rw [same]
  · exact ⟨within.start, within.finish, fun _ none' => by cases none'⟩

theorem assign_report (r' : Reader) (value : TextValue D) (result : Except ErrorInfo (TextValue D)) (suffix : r'.current_ <:+ r.current_)
    (moved : r'.current_.length < r.current_.length) (same : r'.errors_ = r.errors_)
    (within : ∀ e, result = .error e → e.Within r.current_) (normal : ∀ v, result = .ok v → v.Normal) :
    ∃ ok value' r'', r'.assign value result = (ok, value', r'') ∧ Report r r'' ok ∧ (value.Normal → value'.Normal) := by
  cases result with
  | ok v => exact ⟨true, v, r', rfl, .done suffix moved same, fun _ => normal v rfl⟩
  | error e =>
    refine ⟨false, value, _, rfl, .failed suffix ?_ (within e rfl), id⟩
    show r'.errors_ ++ [e] = _
    rw [same]

theorem map_eq_error {decoded : Except ErrorInfo (List UInt8)} {f : List UInt8 → TextValue D} (failed : decoded.map f = .error e) :
    ∃ e', decoded = .error e' ∧ e' = e := by
  cases decoded with
  | ok bytes => cases failed
  | error e' => exact ⟨e', rfl, Except.error.inj failed⟩

theorem map_eq_ok {decoded : Except ErrorInfo (List UInt8)} {f : List UInt8 → TextValue D} (read : decoded.map f = .ok value) :
    ∃ bytes, decoded = .ok bytes ∧ f bytes = value := by
  cases decoded with
  | ok bytes =>
    cases read
    exact ⟨bytes, rfl, rfl⟩
  | error e' => cases read

theorem decodeDigits_le {maxIntegerValue v : Nat} (small : n ≤ maxIntegerValue)
    (read : decodeDigits maxIntegerValue bytes n = .ok (some v)) : v ≤ maxIntegerValue := by
  induction bytes generalizing n with
  | nil =>
    cases read
    exact small
  | cons c bytes ih =>
    unfold decodeDigits at read
    dsimp only at read
    split_ifs at read with other beyond
    · cases read
    · apply ih _ read
      have digit : (c - 48).toNat ≤ 9 := by
        have low : ¬ c.toNat < 48 := fun less => other (.inl (UInt8.lt_iff_toNat_lt.2 less))
        have high : ¬ 57 < c.toNat := fun less => other (.inr (UInt8.lt_iff_toNat_lt.2 less))
        rw [UInt8.toNat_sub_of_le _ _ (UInt8.le_iff_toNat_le.2 (by show 48 ≤ _; omega))]
        show c.toNat - 48 ≤ 9
        omega
      by_cases less : n < maxIntegerValue / 10
      · omega
      · have most : n = maxIntegerValue / 10 ∧ (c - 48).toNat ≤ maxIntegerValue % 10 := by
          constructor
          · by_contra other
            exact beyond ⟨by omega, .inl (by omega)⟩
          · by_contra other
            exact beyond ⟨by omega, .inr (.inr (by omega))⟩
        omega

theorem decodeNumber_normal (read : decodeNumber token = .ok value) : value.Normal := by
  have double : ∀ v, decodeDouble (D := D) token = .ok v → v.Normal := by
    intro v scanned
    rw [decodeDouble] at scanned
    split at scanned
    · cases scanned
    · cases scanned
      exact .real _
  unfold decodeNumber at read
  dsimp only at read
  split_ifs at read with point negative
  · exact double _ read
  · split at read
    · cases read
    · exact double _ read
    · next v digits =>
      cases read
      have small := decodeDigits_le (Nat.zero_le _) digits
      refine .int ?_
      rw [Int64.toInt_ofInt_of_le (by omega) (by omega)]
      omega
  · split at read
    · cases read
    · exact double _ read
    · next v digits =>
      have small := decodeDigits_le (Nat.zero_le _) digits
      split_ifs at read with fits
      · cases read
        refine .int ?_
        rw [Int64.toInt_ofInt_of_le (by omega) (by omega)]
        omega
      · cases read
        refine .uint ?_
        rw [UInt64.toNat_ofNat_of_lt' (by show v < 2 ^ 64; omega)]
        omega

theorem normal_lookup (inside : ∀ m ∈ members, m.2.Normal) (key : CString) : ((members.lookup key).getD .null).Normal := by
  cases found : members.lookup key with
  | none => exact .null
  | some v =>
    obtain ⟨front, back, rfl, -⟩ := List.lookup_eq_some_iff.1 found
    exact inside (key, v) (by simp)

theorem normal_setList (sorted : members.Pairwise fun a b => a.1 < b.1) (inside : ∀ m ∈ members, m.2.Normal) {key : CString}
    (here : value.Normal) : ∀ m ∈ OrderedMap.setList key value members, m.2.Normal := by
  intro m mem
  rcases (OrderedMap.mem_setList sorted).1 mem with rfl | ⟨-, mem⟩
  · exact here
  · exact inside m mem

/-- The reader on a value, on the members that are left and on the elements that are left, with so much fuel. -/
structure Reports (features_ : Features) (D : Doubles) (fuel : Nat) : Prop where
  value : ∀ (r : Reader) (value : TextValue D), 2 * r.current_.length + 2 ≤ fuel → ∃ ok value' r',
    readValue features_ fuel value r = some (ok, value', r') ∧ Report r r' ok ∧ (value.Normal → value'.Normal)
  members : ∀ (r : Reader) name (members : List (CString × TextValue D)), 2 * r.current_.length + 3 ≤ fuel →
    (members.Pairwise fun a b => a.1 < b.1) → (∀ m ∈ members, m.2.Normal) → ∃ ok value' r',
      readObject features_ fuel name members r = some (ok, value', r') ∧ Report r r' ok ∧ value'.Normal
  elements : ∀ (r : Reader) (elements : List (TextValue D)), 2 * r.current_.length + 3 ≤ fuel → (∀ v ∈ elements, v.Normal) →
    ∃ ok value' r', readArray features_ fuel elements r = some (ok, value', r') ∧ Report r r' ok ∧ value'.Normal

theorem readValue_report (ih : Reports features_ D fuel) (r : Reader) (value : TextValue D)
    (enough : 2 * r.current_.length + 2 ≤ fuel + 1) : ∃ ok value' r',
      readValue features_ (fuel + 1) value r = some (ok, value', r') ∧ Report r r' ok ∧ (value.Normal → value'.Normal) := by
  have within := skipCommentTokens_within features_ r.current_
  rw [readValue]
  generalize features_.skipCommentTokens r.current_ = token at within
  dsimp only
  have shorter : token.type_ ≠ .endOfStream → token.end_.length < r.current_.length := within.end_length_lt
  have syntaxError : Report r (Reader.addError { r with current_ := token.end_ }
      (literal "Syntax error: value, object or array expected.") token) false :=
    .failed within.end_suffix rfl ⟨within.start, within.finish, fun _ none' => by cases none'⟩
  cases kind : token.type_
  case objectBegin =>
    have less := shorter (by rw [kind]; decide)
    obtain ⟨ok, value', r', read, report, normal⟩ := ih.members { r with current_ := token.end_ } [] []
      (by dsimp only; omega) .nil (fun _ none' => by cases none')
    exact ⟨ok, value', r', read, report.after within.end_suffix rfl, fun _ => normal⟩
  case arrayBegin =>
    have less := shorter (by rw [kind]; decide)
    have spaces : token.end_.dropWhile isSpace <:+ token.end_ := List.dropWhile_suffix _
    dsimp only
    split_ifs with empty
    · have close := readToken_within (token.end_.dropWhile isSpace)
      refine ⟨true, _, _, rfl, .done ?_ ?_ rfl, fun _ => .array fun _ none' => by cases none'⟩
      · exact close.end_suffix.trans (spaces.trans within.end_suffix)
      · exact lt_of_le_of_lt (close.end_length_le.trans spaces.length_le) less
    · have fewer := spaces.length_le
      obtain ⟨ok, value', r', read, report, normal⟩ := ih.elements { r with current_ := token.end_.dropWhile isSpace } []
        (by dsimp only; omega) (fun _ none' => by cases none')
      exact ⟨ok, value', r', read, report.after (spaces.trans within.end_suffix) rfl, fun _ => normal⟩
  case number =>
    have less := shorter (by rw [kind]; decide)
    obtain ⟨ok, value', r', same, report, normal⟩ := assign_report { r with current_ := token.end_ } value (decodeNumber token)
      within.end_suffix less rfl (fun e failed => decodeNumber_within within failed) (fun v read => decodeNumber_normal read)
    exact ⟨ok, value', r', congrArg some same, report, normal⟩
  case string =>
    have less := shorter (by rw [kind]; decide)
    obtain ⟨ok, value', r', same, report, normal⟩ := assign_report { r with current_ := token.end_ } value
      ((decodeString token).map fun decoded => .string (CString.of decoded)) within.end_suffix less rfl
      (fun e failed => by
        obtain ⟨e', read, rfl⟩ := map_eq_error failed
        exact decodeString_within within read)
      (fun v read => by
        obtain ⟨decoded, -, rfl⟩ := map_eq_ok read
        exact .string _)
    exact ⟨ok, value', r', congrArg some same, report, normal⟩
  case true => exact ⟨_, _, _, rfl, .done within.end_suffix (shorter (by rw [kind]; decide)) rfl, fun _ => .boolean _⟩
  case false => exact ⟨_, _, _, rfl, .done within.end_suffix (shorter (by rw [kind]; decide)) rfl, fun _ => .boolean _⟩
  case null => exact ⟨_, _, _, rfl, .done within.end_suffix (shorter (by rw [kind]; decide)) rfl, fun _ => .null⟩
  all_goals exact ⟨_, _, _, rfl, syntaxError, id⟩

theorem readArray_report (ih : Reports features_ D fuel) (r : Reader) (elements : List (TextValue D))
    (enough : 2 * r.current_.length + 3 ≤ fuel + 1) (inside : ∀ v ∈ elements, v.Normal) : ∃ ok value' r',
      readArray features_ (fuel + 1) elements r = some (ok, value', r') ∧ Report r r' ok ∧ value'.Normal := by
  obtain ⟨ok, value, r₁, read, first, normal⟩ := ih.value r .null (by omega)
  have all : ∀ v ∈ elements ++ [value], v.Normal := by
    intro v mem
    rcases List.mem_append.1 mem with mem | mem
    · exact inside v mem
    · rw [List.mem_singleton.1 mem]
      exact normal .null
  rw [readArray, read]
  cases ok with
  | false => exact ⟨_, _, _, rfl, first.recover _, .array all⟩
  | true =>
    have same := first.of_ok
    have less := first.moved rfl
    have within := nextToken_within r₁.current_
    have here := within.end_suffix.trans first.suffix
    rw [Option.bind_eq_bind, Option.bind_some]
    dsimp only
    rw [if_neg (by decide)]
    split_ifs with bad close
    · exact ⟨_, _, _, rfl, .expected { r₁ with current_ := (nextToken r₁.current_).end_ } (within.trans first.suffix) here same _ _, .array all⟩
    · exact ⟨_, _, _, rfl, .done here (lt_of_le_of_lt within.end_length_le less) same, .array all⟩
    · have goes : (nextToken r₁.current_).type_ ≠ .endOfStream := by
        intro ends
        rw [ends] at bad
        exact bad ⟨by decide, by decide⟩
      have fewer := within.end_length_lt goes
      obtain ⟨ok, value', r₂, read', report, normal'⟩ := ih.elements { r₁ with current_ := (nextToken r₁.current_).end_ }
        (elements ++ [value]) (by dsimp only; omega) all
      exact ⟨ok, value', r₂, read', report.after here same, normal'⟩

theorem readObject_report (ih : Reports features_ D fuel) (r : Reader) (name : List UInt8) (members : List (CString × TextValue D))
    (enough : 2 * r.current_.length + 3 ≤ fuel + 1) (sorted : members.Pairwise fun a b => a.1 < b.1)
    (inside : ∀ m ∈ members, m.2.Normal) : ∃ ok value' r',
      readObject features_ (fuel + 1) name members r = some (ok, value', r') ∧ Report r r' ok ∧ value'.Normal := by
  have within := nextToken_within r.current_
  rw [readObject]
  generalize nextToken r.current_ = tokenName at within
  dsimp only
  have here := within.end_suffix
  by_cases close : tokenName.type_ = .objectEnd ∧ name = []
  · rw [if_pos close]
    exact ⟨_, _, _, rfl, .done here (within.end_length_lt (by rw [close.1]; decide)) rfl, .object sorted inside⟩
  rw [if_neg close]
  by_cases noName : tokenName.type_ ≠ .string
  · rw [if_pos noName]
    exact ⟨_, _, _, rfl, .expected { r with current_ := tokenName.end_ } within here rfl _ _, .object sorted inside⟩
  rw [if_neg noName]
  have less := within.end_length_lt (by rw [not_not.1 noName]; decide)
  cases decoded : decodeString tokenName with
  | error e =>
    refine ⟨_, _, _, rfl, ?_, .object sorted inside⟩
    exact .failed ((recoverLoop_suffix _ _ _).trans here) rfl (decodeString_within within decoded)
  | ok key =>
    have colon := readToken_within tokenName.end_
    have behind := colon.end_suffix.trans here
    have fewer := colon.end_length_le
    dsimp only
    by_cases noColon : (readToken tokenName.end_).type_ ≠ .memberSeparator
    · rw [if_pos noColon]
      exact ⟨_, _, _, rfl, .expected { r with current_ := (readToken tokenName.end_).end_ } (colon.trans here) behind rfl _ _,
        .object sorted inside⟩
    rw [if_neg noColon]
    obtain ⟨ok, value, r₁, read, first, normal⟩ := ih.value { r with current_ := (readToken tokenName.end_).end_ }
      ((members.lookup (CString.of key)).getD .null) (by dsimp only; omega)
    have sorted' := OrderedMap.setList_sorted (k := CString.of key) (v := value) sorted
    have inside' := @normal_setList _ _ _ sorted inside (CString.of key) (normal (normal_lookup inside _))
    have all := TextValue.Normal.object sorted' inside'
    rw [read, Option.bind_eq_bind, Option.bind_some]
    dsimp only
    cases ok with
    | false => exact ⟨_, _, _, rfl, (first.recover _).after behind rfl, all⟩
    | true =>
      have same := first.of_ok
      have done := first.moved rfl
      have suffix := first.suffix.trans behind
      have comma := readToken_within r₁.current_
      have next := nextToken_within r₁.current_
      have length := next.end_length_le
      dsimp only at done
      rw [if_neg (by decide)]
      split_ifs with bad last
      · exact ⟨_, _, _, rfl, .expected { r₁ with current_ := (readToken r₁.current_).end_ } (comma.trans suffix)
          (comma.end_suffix.trans suffix) same _ _, all⟩
      · exact ⟨_, _, _, rfl, .done (next.end_suffix.trans suffix) (by dsimp only; omega) same, all⟩
      · obtain ⟨ok, value', r₂, read', report, normal'⟩ := ih.members { r₁ with current_ := (nextToken r₁.current_).end_ } key
          (OrderedMap.setList (CString.of key) value members) (by dsimp only; omega) sorted' inside'
        exact ⟨ok, value', r₂, read', report.after (next.end_suffix.trans suffix) same, normal'⟩

theorem reports (features_ : Features) (D : Doubles) (fuel : Nat) : Reports features_ D fuel := by
  induction fuel with
  | zero => exact ⟨fun _ _ enough => absurd enough (by omega), fun _ _ _ enough => absurd enough (by omega), fun _ _ enough =>
      absurd enough (by omega)⟩
  | succ fuel ih => exact ⟨readValue_report ih, readObject_report ih, readArray_report ih⟩

/-- **The reader returns on every text**: it succeeds if and only if it reports no error, each error shows places of the text, and what
it leaves is normal. -/
theorem parse_report (features_ : Features) (document_ : List UInt8) (root : TextValue D) : ∃ successful value r,
    parse features_ document_ root = some (successful, value, r) ∧ (successful = true ↔ r.errors_ = []) ∧
      (∀ e ∈ r.errors_, e.Within document_) ∧ (root.Normal → value.Normal) := by
  obtain ⟨ok, value, r, read, report, normal⟩ := (reports features_ D _).value ⟨document_, []⟩ root (Nat.le_refl _)
  obtain ⟨more, errors, iff, within⟩ := report.errors
  rw [List.nil_append] at errors
  rw [parse, read, Option.bind_eq_bind, Option.bind_some]
  dsimp only
  split_ifs with strict
  · refine ⟨_, _, _, rfl, ?_, ?_, normal⟩
    · exact iff_of_false Bool.false_ne_true (List.append_ne_nil_of_right_ne_nil _ (List.cons_ne_nil _ _))
    · intro e mem
      rcases List.mem_append.1 mem with mem | mem
      · exact within e (errors ▸ mem)
      · rw [List.mem_singleton.1 mem]
        exact ⟨List.suffix_refl _, List.nil_suffix, fun _ none' => by cases none'⟩
  · exact ⟨_, _, _, rfl, errors ▸ iff, fun e mem => within e (errors ▸ mem), normal⟩

end Reports

end GameServer.Json

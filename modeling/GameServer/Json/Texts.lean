import GameServer.Json.Writer
import Mathlib.Data.List.DropRight

/-!
# Texts of a value

A text is one of a value if the reader takes it for the value, whatever follows it (`Reads`). The texts of the scalars, and how those of
arrays and objects are put together.
-/

namespace GameServer.Json

open GameServer.Lib

section Spaces

variable {current rest spaces : Location} {n m : Nat} {D : Doubles} {features_ : Features} {token : Token}

def Blank (spaces : List UInt8) : Prop := ∀ c ∈ spaces, isSpace c

theorem blank_nil : Blank [] := fun _ mem => absurd mem List.not_mem_nil

theorem Blank.append {s t : List UInt8} (first : Blank s) (second : Blank t) : Blank (s ++ t) := by
  intro c mem
  rcases List.mem_append.1 mem with mem | mem
  · exact first c mem
  · exact second c mem

theorem Blank.dropWhile (blank : Blank spaces) (rest : List UInt8) : (spaces ++ rest).dropWhile isSpace = rest.dropWhile isSpace :=
  List.dropWhile_append_of_pos blank

theorem readToken_dropWhile (current : Location) : readToken (current.dropWhile isSpace) = readToken current := by
  rw [readToken, readToken, List.dropWhile_idempotent]

theorem readTokens_dropWhile (n : Nat) (current : Location) : readTokens n (current.dropWhile isSpace) = readTokens n current := by
  cases n with
  | zero => exact readToken_dropWhile current
  | succ n => rw [readTokens, readTokens, readToken_dropWhile]

theorem readTokens_nil (n : Nat) : readTokens n [] = readToken [] := by
  cases n with
  | zero => rfl
  | succ n => rw [readTokens, if_neg (by decide)]

theorem readTokens_congr (enough : current.length ≤ n) (enough' : current.length ≤ m) : readTokens n current = readTokens m current := by
  induction n generalizing m current with
  | zero => rw [List.length_eq_zero_iff.1 (Nat.le_zero.1 enough), readTokens_nil, readTokens_nil]
  | succ n ih =>
    cases m with
    | zero => rw [List.length_eq_zero_iff.1 (Nat.le_zero.1 enough'), readTokens_nil, readTokens_nil]
    | succ m =>
      rw [readTokens, readTokens]
      split_ifs with comment
      · have moved := (readToken_within current).end_length_lt (by rw [comment]; decide)
        exact ih (by omega) (by omega)
      · rfl

/-- Spaces in front of a token do not count. -/
theorem nextToken_dropWhile (current : Location) : nextToken (current.dropWhile isSpace) = nextToken current := by
  have shorter : (current.dropWhile isSpace).length ≤ current.length := (List.dropWhile_suffix _).length_le
  rw [nextToken, readTokens_congr (Nat.le_refl _) shorter, readTokens_dropWhile]
  rfl

theorem skipCommentTokens_dropWhile (features_ : Features) (current : Location) :
    features_.skipCommentTokens (current.dropWhile isSpace) = features_.skipCommentTokens current := by
  rw [Features.skipCommentTokens, Features.skipCommentTokens, nextToken_dropWhile, readToken_dropWhile]

theorem readToken_spaces (blank : Blank spaces) (rest : Location) : readToken (spaces ++ rest) = readToken rest := by
  rw [← readToken_dropWhile, blank.dropWhile, readToken_dropWhile]

theorem nextToken_spaces (blank : Blank spaces) (rest : Location) : nextToken (spaces ++ rest) = nextToken rest := by
  rw [← nextToken_dropWhile, blank.dropWhile, nextToken_dropWhile]

theorem nextToken_eq (read : readToken current = token) (kind : token.type_ ≠ .comment) : nextToken current = token := by
  rw [nextToken]
  cases current.length with
  | zero => exact read
  | succ n => rw [readTokens, read, if_neg kind]

theorem skipCommentTokens_eq (read : readToken current = token) (kind : token.type_ ≠ .comment) :
    features_.skipCommentTokens current = token := by
  rw [Features.skipCommentTokens, nextToken_eq read kind, read, ite_self]

theorem readValue_dropWhile (fuel : Nat) (value : TextValue D) (current : Location) (errors : List ErrorInfo) :
    readValue features_ fuel value ⟨current.dropWhile isSpace, errors⟩ = readValue features_ fuel value ⟨current, errors⟩ := by
  cases fuel with
  | zero => rfl
  | succ fuel => rw [readValue, readValue, skipCommentTokens_dropWhile]

theorem readArray_dropWhile (fuel : Nat) (elements : List (TextValue D)) (current : Location) (errors : List ErrorInfo) :
    readArray features_ fuel elements ⟨current.dropWhile isSpace, errors⟩ = readArray features_ fuel elements ⟨current, errors⟩ := by
  cases fuel with
  | zero => rfl
  | succ fuel => rw [readArray, readArray, readValue_dropWhile]

theorem Token.text_eq (type_ : TokenType) (text rest : List UInt8) : Token.text ⟨type_, text ++ rest, rest⟩ = text := by
  rw [Token.text, List.length_append, Nat.add_sub_cancel, List.take_left]

end Spaces

section Values

variable {D : Doubles} {v : TextValue D} {text t sp rest : List UInt8} {c : UInt8} {vs : List (TextValue D)}
  {ms : List (CString × TextValue D)} {key : CString}

/-- What may stand behind a number. -/
def Stops (rest : List UInt8) : Prop := ∀ c ∈ rest.head?, isNumber c = false

/-- The text begins with something other than the end of an array. -/
def Opens (text : List UInt8) : Prop := ∃ c rest, text.dropWhile isSpace = c :: rest ∧ c ≠ 93

structure Reads (v : TextValue D) (text : List UInt8) : Prop where
  opens : Opens text
  read : ∀ features_ rest errors current fuel, Stops rest → 2 * text.length + 2 ≤ fuel →
    readValue features_ fuel current ⟨text ++ rest, errors⟩ = some (true, v, ⟨rest, errors⟩)

/-- The elements from some on, with the end of the array. -/
structure ReadsElements (vs : List (TextValue D)) (text : List UInt8) : Prop where
  opens : Opens text
  read : ∀ features_ rest errors elements fuel, 2 * text.length + 3 ≤ fuel →
    readArray features_ fuel elements ⟨text ++ rest, errors⟩ = some (true, .array (elements ++ vs), ⟨rest, errors⟩)

/-- The members from some on, with the end of the object. -/
def ReadsMembers (ms : List (CString × TextValue D)) (text : List UInt8) : Prop :=
  ∀ features_ rest errors name (members : List (CString × TextValue D)) fuel, (∀ m ∈ members, ∀ m' ∈ ms, m.1 < m'.1) →
    2 * text.length + 3 ≤ fuel →
    readObject features_ fuel name members ⟨text ++ rest, errors⟩ = some (true, .object (members ++ ms), ⟨rest, errors⟩)

theorem stops_cons (other : isNumber c = false) (rest : List UInt8) : Stops (c :: rest) := by
  intro c' head
  obtain rfl := Option.some.inj head
  exact other

theorem Stops.of_blank (blank : Blank sp) (stops : Stops rest) : Stops (sp ++ rest) := by
  cases sp with
  | nil => exact stops
  | cons c sp =>
    have space := blank c List.mem_cons_self
    simp only [isSpace, Bool.or_eq_true, decide_eq_true_eq] at space
    apply stops_cons
    rcases space with ((rfl | rfl) | rfl) | rfl <;> decide

theorem Opens.spaces (blank : Blank sp) (opens : Opens text) : Opens (sp ++ text) := by
  obtain ⟨c, rest, start, other⟩ := opens
  exact ⟨c, rest, by rw [blank.dropWhile, start], other⟩

theorem Opens.append (opens : Opens text) (t : List UInt8) : Opens (text ++ t) := by
  obtain ⟨c, rest, start, other⟩ := opens
  refine ⟨c, rest ++ t, ?_, other⟩
  rw [List.dropWhile_append, start]
  rfl

theorem Reads.spaces (blank : Blank sp) (reads : Reads v text) : Reads v (sp ++ text) where
  opens := reads.opens.spaces blank
  read features_ rest errors current fuel stops enough := by
    rw [List.length_append] at enough
    rw [← readValue_dropWhile, List.append_assoc, blank.dropWhile, readValue_dropWhile]
    exact reads.read features_ rest errors current fuel stops (by omega)

theorem ReadsElements.spaces (blank : Blank sp) (reads : ReadsElements vs text) : ReadsElements vs (sp ++ text) where
  opens := reads.opens.spaces blank
  read features_ rest errors elements fuel enough := by
    rw [List.length_append] at enough
    rw [← readArray_dropWhile, List.append_assoc, blank.dropWhile, readArray_dropWhile]
    exact reads.read features_ rest errors elements fuel (by omega)

/-- One step of the reader. -/
theorem Reads.of_step (opens : Opens text) (step : ∀ features_ rest errors current fuel, Stops rest → 2 * text.length + 1 ≤ fuel →
    readValue features_ (fuel + 1) current ⟨text ++ rest, errors⟩ = some (true, v, ⟨rest, errors⟩)) : Reads v text where
  opens := opens
  read features_ rest errors current fuel stops enough := by
    obtain ⟨fuel, rfl⟩ : ∃ n, fuel = n + 1 := ⟨fuel - 1, by omega⟩
    exact step features_ rest errors current fuel stops (by omega)

theorem reads_null : Reads (D := D) .null (literal "null") := by
  refine .of_step ⟨110, literal "ull", rfl, by decide⟩ ?_
  intro features_ rest errors current fuel stops enough
  have token : readToken (literal "null" ++ rest) = ⟨.null, literal "null" ++ rest, rest⟩ := rfl
  rw [readValue, skipCommentTokens_eq token (by simp)]

theorem reads_boolean (b : Bool) : Reads (D := D) (.boolean b) (literal (if b then "true" else "false")) := by
  cases b with
  | true =>
    refine .of_step ⟨116, literal "rue", rfl, by decide⟩ ?_
    intro features_ rest errors current fuel stops enough
    have token : readToken (literal "true" ++ rest) = ⟨.true, literal "true" ++ rest, rest⟩ := rfl
    rw [if_pos rfl, readValue, skipCommentTokens_eq token (by simp)]
  | false =>
    refine .of_step ⟨102, literal "alse", rfl, by decide⟩ ?_
    intro features_ rest errors current fuel stops enough
    have token : readToken (literal "false" ++ rest) = ⟨.false, literal "false" ++ rest, rest⟩ := rfl
    rw [if_neg Bool.false_ne_true, readValue, skipCommentTokens_eq token (by simp)]

theorem reads_array_nil : Reads (D := D) (.array []) (literal "[]") := by
  refine .of_step ⟨91, literal "]", rfl, by decide⟩ ?_
  intro features_ rest errors current fuel stops enough
  have token : readToken (literal "[]" ++ rest) = ⟨.arrayBegin, literal "[]" ++ rest, literal "]" ++ rest⟩ := rfl
  rw [readValue, skipCommentTokens_eq token (by simp)]
  rfl

theorem reads_array (elements : ReadsElements vs text) : Reads (.array vs) (literal "[" ++ text) := by
  refine .of_step ⟨91, text, rfl, by decide⟩ ?_
  intro features_ rest errors current fuel stops enough
  rw [List.length_append] at enough
  have one : (literal "[").length = 1 := rfl
  have token : readToken (literal "[" ++ text ++ rest) = ⟨.arrayBegin, literal "[" ++ text ++ rest, text ++ rest⟩ := rfl
  rw [readValue, skipCommentTokens_eq token (by simp)]
  obtain ⟨c, tail, start, other⟩ := elements.opens.append rest
  dsimp only
  rw [if_neg, readArray_dropWhile, elements.read features_ rest errors [] fuel (by omega), List.nil_append]
  rw [start]
  exact fun same => other (Option.some.inj same)

theorem reads_object_nil : Reads (D := D) (.object []) (literal "\x7b\x7d") := by
  refine .of_step ⟨123, literal "\x7d", rfl, by decide⟩ ?_
  intro features_ rest errors current fuel stops enough
  have token : readToken (literal "\x7b\x7d" ++ rest) = ⟨.objectBegin, literal "\x7b\x7d" ++ rest, literal "\x7d" ++ rest⟩ := rfl
  have close : readToken (literal "\x7d" ++ rest) = ⟨.objectEnd, literal "\x7d" ++ rest, rest⟩ := rfl
  obtain ⟨fuel, rfl⟩ : ∃ n, fuel = n + 1 := ⟨fuel - 1, by omega⟩
  rw [readValue, skipCommentTokens_eq token (by simp)]
  dsimp only
  rw [readObject, nextToken_eq close (by simp)]
  rfl

theorem reads_object (members : ReadsMembers ms text) : Reads (.object ms) (literal "\x7b" ++ text) := by
  refine .of_step ⟨123, text, rfl, by decide⟩ ?_
  intro features_ rest errors current fuel stops enough
  rw [List.length_append] at enough
  have one : (literal "\x7b").length = 1 := rfl
  have token : readToken (literal "\x7b" ++ text ++ rest) = ⟨.objectBegin, literal "\x7b" ++ text ++ rest, text ++ rest⟩ := rfl
  rw [readValue, skipCommentTokens_eq token (by simp)]
  exact members features_ rest errors [] [] fuel (fun _ none' => by cases none') (by omega)

end Values

section Strings

variable {D : Doubles} {chars rest last decoded : List UInt8} {c : UInt8} {n : Nat} {token : Token}

theorem hexDigit_upperHex : ∀ n < 16, hexDigit (upperHex n) = some n := by decide

theorem upperHex_plain : ∀ n < 16, upperHex n ≠ 92 ∧ upperHex n ≠ 34 := by decide

/-- The escape of a control character. -/
theorem control_lt (control : isControlCharacter c = true) : c.toNat / 16 < 16 ∧ c.toNat ≤ 0x1F := by
  rw [isControlCharacter, Bool.and_eq_true, decide_eq_true_eq, decide_eq_true_eq] at control
  have small : c.toNat ≤ 0x1F := UInt8.le_iff_toNat_le.1 control.2
  omega

theorem valueToQuotedString_eq (value : CString) : valueToQuotedString value = 34 :: value.chars.flatMap escapedText ++ [34] := by
  rw [valueToQuotedString]
  split_ifs with plain
  · have same : value.chars.flatMap escapedText = value.chars.flatMap fun c => [c] := by
      apply List.flatMap_congr
      intro c mem
      obtain ⟨special, control⟩ := plain
      simp only [List.any_eq_true, not_exists, not_and, Bool.or_eq_true, decide_eq_true_eq, not_or] at special
      have noControl : ¬ isControlCharacter c = true := fun is => control (List.any_eq_true.2 ⟨c, mem, is⟩)
      obtain ⟨⟨⟨⟨⟨⟨h₁, h₂⟩, h₃⟩, h₄⟩, h₅⟩, h₆⟩, h₇⟩ := special c mem
      rw [escapedText, if_neg h₁, if_neg h₂, if_neg h₃, if_neg h₄, if_neg h₅, if_neg h₆, if_neg h₇, if_neg noControl]
    rw [same, List.flatMap_singleton']
  · rfl

theorem readString_escape (c : UInt8) (rest : Location) : readString (92 :: c :: rest) = readString rest := rfl

theorem readString_plain (slash : c ≠ 92) (quote : c ≠ 34) (rest : Location) : readString (c :: rest) = readString rest := by
  rw [readString.eq_def]
  dsimp only
  rw [if_neg slash, if_neg quote]

theorem readString_escapedText (c : UInt8) (rest : Location) : readString (escapedText c ++ rest) = readString rest := by
  unfold escapedText
  split_ifs with quote slash b f n r t control
  · exact readString_escape _ _
  · exact readString_escape _ _
  · exact readString_escape _ _
  · exact readString_escape _ _
  · exact readString_escape _ _
  · exact readString_escape _ _
  · exact readString_escape _ _
  · obtain ⟨high, -⟩ := control_lt control
    obtain ⟨slash₁, quote₁⟩ := upperHex_plain _ high
    obtain ⟨slash₀, quote₀⟩ := upperHex_plain _ (Nat.mod_lt c.toNat (by decide))
    show readString (92 :: 117 :: 48 :: 48 :: upperHex (c.toNat / 16) :: upperHex (c.toNat % 16) :: rest) = _
    rw [readString_escape, readString_plain (by decide) (by decide), readString_plain (by decide) (by decide),
      readString_plain slash₁ quote₁, readString_plain slash₀ quote₀]
  · exact readString_plain slash quote rest

/-- A string is scanned up to its closing quote. -/
theorem readString_quoted (chars rest : List UInt8) : readString (chars.flatMap escapedText ++ 34 :: rest) = (true, rest) := by
  induction chars with
  | nil =>
    rw [List.flatMap_nil, List.nil_append, readString.eq_def]
    dsimp only
    rw [if_neg (by decide), if_pos rfl]
  | cons c chars ih => rw [List.flatMap_cons, List.append_assoc, readString_escapedText, ih]

theorem decodeLoop_escape (escape : UInt8) (rest : List UInt8) (other : escape ≠ 117) (what : escaped escape = some c) :
    decodeLoop token last (n + 1) (92 :: escape :: rest) decoded = decodeLoop token last n rest (decoded ++ [c]) := by
  rw [decodeLoop.eq_def]
  dsimp only
  rw [if_neg (by decide), if_pos rfl, if_neg other, what]

theorem decodeLoop_escapedText (noNul : c ≠ 0) (rest : List UInt8) :
    decodeLoop token last (n + 1) (escapedText c ++ rest) decoded = decodeLoop token last n rest (decoded ++ [c]) := by
  unfold escapedText
  split_ifs with quote slash b f nl r t control
  · subst quote
    exact decodeLoop_escape 34 rest (by decide) rfl
  · subst slash
    exact decodeLoop_escape 92 rest (by decide) rfl
  · exact b ▸ decodeLoop_escape 98 rest (by decide) rfl
  · exact f ▸ decodeLoop_escape 102 rest (by decide) rfl
  · exact nl ▸ decodeLoop_escape 110 rest (by decide) rfl
  · exact r ▸ decodeLoop_escape 114 rest (by decide) rfl
  · exact t ▸ decodeLoop_escape 116 rest (by decide) rfl
  · obtain ⟨high, small⟩ := control_lt control
    have first := hexDigit_upperHex _ high
    have second := hexDigit_upperHex _ (Nat.mod_lt c.toNat (show 0 < 16 by decide))
    have point : decodeUnicodeCodePoint token last (48 :: 48 :: upperHex (c.toNat / 16) :: upperHex (c.toNat % 16) :: rest) =
        .ok (c.toNat, rest) := by
      have digits : decodeUnicodeEscapeSequence token last
          (48 :: 48 :: upperHex (c.toNat / 16) :: upperHex (c.toNat % 16) :: rest) = .ok (c.toNat, rest) := by
        have zero : hexDigit 48 = some 0 := rfl
        have whole : ((0 * 16 + 0) * 16 + 0) * 16 + c.toNat / 16 = c.toNat / 16 := by omega
        have value : c.toNat / 16 * 16 + c.toNat % 16 = c.toNat := by omega
        rw [decodeUnicodeEscapeSequence, if_neg (by simp)]
        simp only [hexDigits, zero, first, second, whole, value]
      rw [decodeUnicodeCodePoint, digits]
      show (if 0xD800 ≤ c.toNat ∧ c.toNat ≤ 0xDBFF then _ else _ : Except ErrorInfo (Nat × List UInt8)) = _
      rw [if_neg (by omega)]
    have utf8 : codePointToUTF8 c.toNat = [c] := by
      rw [codePointToUTF8, if_pos (by omega), UInt8.ofNat_toNat]
    show decodeLoop token last (n + 1) (92 :: 117 :: 48 :: 48 :: upperHex (c.toNat / 16) :: upperHex (c.toNat % 16) :: rest) decoded = _
    rw [decodeLoop.eq_def]
    dsimp only
    rw [if_neg (by decide), if_pos rfl, if_pos rfl, point]
    show decodeLoop token last n rest (decoded ++ codePointToUTF8 c.toNat) = _
    rw [utf8]
  · rw [List.singleton_append, decodeLoop.eq_def]
    dsimp only
    rw [if_neg quote, if_neg slash]

/-- The escapes are undone. -/
theorem decodeLoop_quoted (noNul : 0 ∉ chars) (enough : chars.length ≤ n) :
    decodeLoop token last n (chars.flatMap escapedText) decoded = .ok (decoded ++ chars) := by
  induction chars generalizing n decoded with
  | nil =>
    rw [List.append_nil]
    cases n <;> rfl
  | cons c chars ih =>
    obtain ⟨n, rfl⟩ : ∃ k, n = k + 1 := ⟨n - 1, by rw [List.length_cons] at enough; omega⟩
    rw [List.flatMap_cons, decodeLoop_escapedText (List.ne_of_not_mem_cons noNul).symm,
      ih (List.not_mem_of_not_mem_cons noNul) (Nat.le_of_succ_le_succ enough), List.append_assoc, List.singleton_append]

theorem length_le_escapedText (c : UInt8) : 1 ≤ (escapedText c).length := by
  unfold escapedText
  split_ifs <;> exact Nat.succ_le_succ (Nat.zero_le _)

theorem length_le_flatMap (chars : List UInt8) : chars.length ≤ (chars.flatMap escapedText).length := by
  induction chars with
  | nil => exact Nat.le_refl _
  | cons c chars ih =>
    rw [List.flatMap_cons, List.length_append, List.length_cons]
    have := length_le_escapedText c
    omega

variable (value : CString)

theorem readToken_quoted (rest : Location) :
    readToken (valueToQuotedString value ++ rest) = ⟨.string, valueToQuotedString value ++ rest, rest⟩ := by
  have whole : valueToQuotedString value ++ rest = 34 :: (value.chars.flatMap escapedText ++ 34 :: rest) := by
    rw [valueToQuotedString_eq]
    simp
  rw [whole]
  show ended .string _ (readString _) = _
  rw [readString_quoted]
  rfl

theorem decodeString_quoted (rest : Location) :
    decodeString ⟨.string, valueToQuotedString value ++ rest, rest⟩ = .ok value.chars := by
  rw [decodeString]
  dsimp only
  rw [Token.text_eq, valueToQuotedString_eq, List.cons_append, List.tail_cons, List.dropLast_concat]
  exact decodeLoop_quoted value.noNul (length_le_flatMap _)

theorem reads_string : Reads (D := D) (.string value) (valueToQuotedString value) := by
  have start : valueToQuotedString value = 34 :: (value.chars.flatMap escapedText ++ [34]) := valueToQuotedString_eq value
  refine .of_step ⟨34, _, by rw [start]; rfl, by decide⟩ ?_
  intro features_ rest errors current fuel stops enough
  rw [readValue, skipCommentTokens_eq (readToken_quoted value rest) (by simp)]
  dsimp only
  rw [decodeString_quoted]
  show some (true, TextValue.string (CString.of value.chars), _) = _
  rw [CString.of_chars]

end Strings

section Lists

variable {D : Doubles} {v : TextValue D} {text t sp sp' : List UInt8} {vs : List (TextValue D)} {ms : List (CString × TextValue D)}
  {key : CString}

theorem reads_last (reads : Reads v text) (blank : Blank sp) : ReadsElements [v] (text ++ sp ++ literal "]") where
  opens := (reads.opens.append sp).append _
  read features_ rest errors elements fuel enough := by
    obtain ⟨fuel, rfl⟩ : ∃ n, fuel = n + 1 := ⟨fuel - 1, by omega⟩
    rw [List.length_append, List.length_append] at enough
    have token : readToken (literal "]" ++ rest) = ⟨.arrayEnd, literal "]" ++ rest, rest⟩ := rfl
    have close : nextToken (sp ++ (literal "]" ++ rest)) = _ := (nextToken_spaces blank _).trans (nextToken_eq token (by simp))
    have stops : Stops (sp ++ (literal "]" ++ rest)) := .of_blank blank (stops_cons rfl rest)
    rw [List.append_assoc, List.append_assoc, readArray, reads.read _ _ _ _ _ stops (by omega),
      Option.bind_eq_bind, Option.bind_some]
    dsimp only
    rw [if_neg (by decide), close]
    rfl

theorem reads_more (reads : Reads v text) (blank : Blank sp) (more : ReadsElements vs t) :
    ReadsElements (v :: vs) (text ++ sp ++ literal "," ++ t) where
  opens := ((reads.opens.append sp).append _).append t
  read features_ rest errors elements fuel enough := by
    obtain ⟨fuel, rfl⟩ : ∃ n, fuel = n + 1 := ⟨fuel - 1, by omega⟩
    rw [List.length_append, List.length_append, List.length_append] at enough
    have one : (literal ",").length = 1 := rfl
    have token : readToken (literal "," ++ (t ++ rest)) = ⟨.arraySeparator, literal "," ++ (t ++ rest), t ++ rest⟩ := rfl
    have comma : nextToken (sp ++ (literal "," ++ (t ++ rest))) = _ := (nextToken_spaces blank _).trans (nextToken_eq token (by simp))
    have stops : Stops (sp ++ (literal "," ++ (t ++ rest))) := .of_blank blank (stops_cons rfl _)
    rw [List.append_assoc, List.append_assoc, List.append_assoc, readArray, reads.read _ _ _ _ _ stops (by omega),
      Option.bind_eq_bind, Option.bind_some]
    dsimp only
    rw [if_neg (by decide), comma]
    show readArray features_ fuel (elements ++ [v]) ⟨t ++ rest, errors⟩ = _
    rw [more.read _ _ _ _ _ (by omega), List.append_assoc, List.singleton_append]

/-- A key behind all others is set at the end. -/
theorem setList_append {members : List (CString × TextValue D)} (less : ∀ m ∈ members, m.1 < key) :
    OrderedMap.setList key v members = members ++ [(key, v)] := by
  induction members with
  | nil => rfl
  | cons m members ih =>
    have here := less m List.mem_cons_self
    rw [OrderedMap.setList, if_neg (not_lt_of_gt here), if_neg (ne_of_lt here), ih fun m' mem => less m' (List.mem_cons_of_mem m mem)]
    rfl

/-- The reader on a member, up to the token behind its value. -/
theorem readObject_member (name : CString) (blank : Blank sp) (blank' : Blank sp') (reads : Reads v text) (features_ : Features)
    {rest : Location} {fuel : Nat} (errors : List ErrorInfo) (name' : List UInt8) {members : List (CString × TextValue D)}
    (less : ∀ m ∈ members, m.1 < name) (stops : Stops rest) (enough : 2 * text.length + 2 ≤ fuel) {comma : Token}
    (token : readToken rest = comma) (other : comma.type_ ≠ .comment) :
    readObject features_ (fuel + 1) name' members
        ⟨sp ++ (valueToQuotedString name ++ (sp' ++ (literal ":" ++ (text ++ rest)))), errors⟩ =
      if comma.type_ ≠ .objectEnd ∧ comma.type_ ≠ .arraySeparator then
        some (false, .object (members ++ [(name, v)]), Reader.addErrorAndRecover ⟨comma.end_, errors⟩
          (literal "Missing ',' or '\x7d' in object declaration") comma .objectEnd)
      else if comma.type_ = .objectEnd then some (true, .object (members ++ [(name, v)]), ⟨comma.end_, errors⟩)
      else readObject features_ fuel name.chars (members ++ [(name, v)]) ⟨comma.end_, errors⟩ := by
  have colon : readToken (literal ":" ++ (text ++ rest)) = ⟨.memberSeparator, literal ":" ++ (text ++ rest), text ++ rest⟩ := rfl
  have here : nextToken (sp ++ (valueToQuotedString name ++ (sp' ++ (literal ":" ++ (text ++ rest))))) = _ :=
    (nextToken_spaces blank _).trans (nextToken_eq (readToken_quoted name _) (by simp))
  rw [readObject, here]
  dsimp only
  rw [if_neg (by rintro ⟨is, -⟩; cases is), if_neg (by simp), decodeString_quoted]
  dsimp only
  rw [readToken_spaces blank', colon]
  dsimp only
  rw [if_neg (by simp), reads.read _ _ _ _ _ stops enough, Option.bind_eq_bind, Option.bind_some]
  dsimp only
  rw [if_neg (by decide), CString.of_chars, setList_append less, token, nextToken_eq token other]
  simp [other]

theorem reads_lastMember (name : CString) (blank : Blank sp) (blank' : Blank sp') (reads : Reads v text) {behind : List UInt8}
    (blankBehind : Blank behind) :
    ReadsMembers [(name, v)] (sp ++ valueToQuotedString name ++ sp' ++ literal ":" ++ text ++ behind ++ literal "\x7d") := by
  intro features_ rest errors name' members fuel less enough
  obtain ⟨fuel, rfl⟩ : ∃ n, fuel = n + 1 := ⟨fuel - 1, by omega⟩
  simp only [List.length_append] at enough
  have token : readToken (behind ++ (literal "\x7d" ++ rest)) = ⟨.objectEnd, literal "\x7d" ++ rest, rest⟩ := readToken_spaces blankBehind _
  have stops : Stops (behind ++ (literal "\x7d" ++ rest)) := .of_blank blankBehind (stops_cons rfl rest)
  simp only [List.append_assoc]
  rw [readObject_member name blank blank' reads features_ errors name' (fun m mem => less m mem _ (List.mem_singleton_self _))
    stops (by omega) token (by simp)]
  rfl

theorem reads_moreMembers (name : CString) (blank : Blank sp) (blank' : Blank sp') (reads : Reads v text) {behind : List UInt8}
    (blankBehind : Blank behind) (more : ReadsMembers ms t) (first : ∀ m ∈ ms, name < m.1) :
    ReadsMembers ((name, v) :: ms) (sp ++ valueToQuotedString name ++ sp' ++ literal ":" ++ text ++ behind ++ literal "," ++ t) := by
  intro features_ rest errors name' members fuel less enough
  obtain ⟨fuel, rfl⟩ : ∃ n, fuel = n + 1 := ⟨fuel - 1, by omega⟩
  simp only [List.length_append] at enough
  have one : (literal ",").length = 1 := rfl
  have token : readToken (behind ++ (literal "," ++ (t ++ rest))) = ⟨.arraySeparator, literal "," ++ (t ++ rest), t ++ rest⟩ :=
    readToken_spaces blankBehind _
  have less' : ∀ m ∈ members ++ [(name, v)], ∀ m' ∈ ms, m.1 < m'.1 := by
    intro m mem m' mem'
    rcases List.mem_append.1 mem with mem | mem
    · exact less m mem m' (List.mem_cons_of_mem _ mem')
    · rw [List.mem_singleton.1 mem]
      exact first m' mem'
  have stops : Stops (behind ++ (literal "," ++ (t ++ rest))) := .of_blank blankBehind (stops_cons rfl _)
  simp only [List.append_assoc]
  rw [readObject_member name blank blank' reads features_ errors name' (fun m mem => less m mem _ List.mem_cons_self)
    stops (by omega) token (by simp)]
  show readObject features_ fuel name.chars (members ++ [(name, v)]) ⟨t ++ rest, errors⟩ = _
  rw [more _ _ _ _ _ _ less' (by omega), List.append_assoc, List.singleton_append]

end Lists

section Numbers

variable {D : Doubles} {digits text rest : List UInt8} {c : UInt8} {n maxIntegerValue acc : Nat} {token : Token}

theorem isNumber_of_isdigit (digit : isdigit c) : isNumber c ∧ c ≠ 46 ∧ c ≠ 101 ∧ c ≠ 69 ∧ c ≠ 43 ∧ c ≠ 45 := by
  have other : ∀ x : UInt8, isdigit x = false → c ≠ x := by
    rintro x no rfl
    rw [no] at digit
    exact Bool.false_ne_true digit
  refine ⟨?_, other _ rfl, other _ rfl, other _ rfl, other _ rfl, other _ rfl⟩
  rw [isdigit] at digit
  rw [isNumber, digit]
  rfl

/-- A number is scanned up to the first character that is no part of one. -/
theorem readToken_number (start : isdigit c ∨ c = 45) (all : ∀ c ∈ text, isNumber c) (stops : Stops rest) :
    readToken (c :: text ++ rest) = ⟨.number, c :: text ++ rest, rest⟩ := by
  have other : ∀ x : UInt8, (isdigit x || x = 45) = false → c ≠ x := by
    rintro x no rfl
    rw [Bool.or_eq_false_iff, decide_eq_false_iff_not] at no
    rcases start with digit | minus
    · rw [no.1] at digit
      exact Bool.false_ne_true digit
    · exact no.2 minus
  have space : isSpace c = false := by
    simp only [isSpace, Bool.or_eq_false_iff, decide_eq_false_iff_not]
    exact ⟨⟨⟨other _ rfl, other _ rfl⟩, other _ rfl⟩, other _ rfl⟩
  have first : (48 ≤ c ∧ c ≤ 57) ∨ c = 45 := by
    rw [isdigit, Bool.and_eq_true, decide_eq_true_eq, decide_eq_true_eq] at start
    exact start
  have behind : (text ++ rest).dropWhile isNumber = rest := by
    rw [List.dropWhile_append_of_pos all]
    cases rest with
    | nil => rfl
    | cons c' rest => rw [List.dropWhile_cons_of_neg (by rw [stops c' rfl]; exact Bool.false_ne_true)]
  rw [readToken, List.cons_append, List.dropWhile_cons_of_neg (by rw [space]; exact Bool.false_ne_true)]
  dsimp only
  rw [if_neg (other _ rfl), if_neg (other _ rfl), if_neg (other _ rfl), if_neg (other _ rfl), if_neg (other _ rfl),
    if_neg (other _ rfl), if_pos first, behind]

theorem le_foldl (digits : List UInt8) (acc : Nat) : acc ≤ digits.foldl (fun n c => 10 * n + (c.toNat - 48)) acc := by
  induction digits generalizing acc with
  | nil => exact Nat.le_refl _
  | cons c digits ih => exact le_trans (by omega) (ih (10 * acc + (c.toNat - 48)))

/-- The digits are read if the number is in range. -/
theorem decodeDigits_eq (all : ∀ c ∈ digits, isdigit c) (large : 10 ≤ maxIntegerValue)
    (fits : digits.foldl (fun n c => 10 * n + (c.toNat - 48)) acc ≤ maxIntegerValue) :
    decodeDigits maxIntegerValue digits acc = .ok (some (digits.foldl (fun n c => 10 * n + (c.toNat - 48)) acc)) := by
  induction digits generalizing acc with
  | nil => rfl
  | cons c digits ih =>
    obtain ⟨low, high⟩ := isdigit_iff.1 (all c List.mem_cons_self)
    have digit : (c - 48).toNat = c.toNat - 48 := by
      rw [UInt8.toNat_sub_of_le c 48 (UInt8.le_iff_toNat_le.2 low)]
      rfl
    have inside : ¬ (c < 48 ∨ c > 57) := by
      rintro (less | more)
      · exact absurd (UInt8.lt_iff_toNat_lt.1 less) (not_lt_of_ge low)
      · exact absurd (UInt8.lt_iff_toNat_lt.1 more) (not_lt_of_ge high)
    rw [List.foldl_cons] at fits ⊢
    have here := (le_foldl digits (10 * acc + (c.toNat - 48))).trans fits
    have next : digits ≠ [] → 10 * (10 * acc + (c.toNat - 48)) ≤ maxIntegerValue := by
      intro some'
      obtain ⟨c', digits, rfl⟩ := List.exists_cons_of_ne_nil some'
      exact le_trans (by omega) ((le_foldl digits (10 * (10 * acc + (c.toNat - 48)) + (c'.toNat - 48))).trans fits)
    have room : ¬ (maxIntegerValue / 10 ≤ acc ∧
        (maxIntegerValue / 10 < acc ∨ digits ≠ [] ∨ maxIntegerValue % 10 < (c - 48).toNat)) := by
      rintro ⟨reached, exceeded | more | beyond⟩
      · omega
      · have := next more
        omega
      · omega
    unfold decodeDigits
    dsimp only
    rw [if_neg inside, if_neg room, digit, Nat.mul_comm acc 10]
    exact ih (fun c' mem => all c' (List.mem_cons_of_mem _ mem)) fits

theorem decodeDigits_natText (large : 10 ≤ maxIntegerValue) (fits : n ≤ maxIntegerValue) :
    decodeDigits maxIntegerValue (natText n) 0 = .ok (some n) := by
  have value : (natText n).foldl (fun n c => 10 * n + (c.toNat - 48)) 0 = n := decimal_natText n
  have digits : ∀ c ∈ natText n, isdigit c := isdigit_decimalDigits
  rw [decodeDigits_eq digits large (by rw [value]; exact fits), value]

theorem natText_cons (n : Nat) : ∃ c text, natText n = c :: text ∧ isdigit c ∧ ∀ c ∈ text, isdigit c := by
  obtain ⟨c, text, same⟩ := List.exists_cons_of_ne_nil (decimalDigits_ne_nil (k := n) (n := n))
  have all : ∀ c' ∈ c :: text, isdigit c' := same ▸ isdigit_decimalDigits
  exact ⟨c, text, same, all c List.mem_cons_self, fun c' mem => all c' (List.mem_cons_of_mem c mem)⟩

/-- No part of the digits makes the number a real one. -/
theorem natText_integer (n : Nat) : ((natText n).any fun c => c = 46 || c = 101 || c = 69 || c = 43) = false ∧
    ((natText n).any (· = 45)) = false ∧ ((natText n).tail.any (· = 45)) = false := by
  have plain : ∀ c ∈ natText n, (c = 46 || c = 101 || c = 69 || c = 43) = false ∧ (c = 45) = false := by
    intro c mem
    obtain ⟨-, h₁, h₂, h₃, h₄, h₅⟩ := isNumber_of_isdigit (isdigit_decimalDigits c mem)
    simp [h₁, h₂, h₃, h₄, h₅]
  refine ⟨?_, ?_, ?_⟩
  · exact List.any_eq_false.2 fun c mem => by rw [(plain c mem).1]; exact Bool.false_ne_true
  · exact List.any_eq_false.2 fun c mem => by simp [(plain c mem).2]
  · exact List.any_eq_false.2 fun c mem => by simp [(plain c (List.mem_of_mem_tail mem)).2]

/-- A number that is not negative is signed if it is in the range of `int`. -/
def unsignedValue (n : Nat) : TextValue D := if n ≤ 2 ^ 31 - 1 then .int (Int64.ofInt n) else .uint (UInt64.ofNat n)

theorem decodeNumber_natText (text : token.text = natText n) (fits : n ≤ 2 ^ 64 - 1) :
    decodeNumber (D := D) token = .ok (unsignedValue n) := by
  obtain ⟨point, -, minus⟩ := natText_integer n
  have head : ¬ (natText n).head? = some 45 := by
    obtain ⟨c, rest, same, digit, -⟩ := natText_cons n
    rw [same]
    intro is
    exact (isNumber_of_isdigit digit).2.2.2.2.2 (Option.some.inj is)
  unfold decodeNumber unsignedValue
  dsimp only
  rw [text, point, minus, if_neg (by decide), if_neg head, if_neg head, decodeDigits_natText (by decide) fits]
  dsimp only
  rw [if_neg head]
  split_ifs <;> rfl

theorem decodeNumber_negative (text : token.text = 45 :: natText n) (fits : n ≤ 2 ^ 63) :
    decodeNumber (D := D) token = .ok (.int (Int64.ofInt (-n))) := by
  obtain ⟨point, minus, -⟩ := natText_integer n
  have point' : ((45 :: natText n).any fun c => c = 46 || c = 101 || c = 69 || c = 43) = false := by
    rw [List.any_cons, point]
    rfl
  unfold decodeNumber
  dsimp only
  have head : (45 :: natText n).head? = some 45 := rfl
  rw [text, point', List.tail_cons, minus, if_neg (by decide), if_pos head, if_pos head, decodeDigits_natText (by decide) fits]
  dsimp only
  rw [if_pos head]

theorem reads_number {v : TextValue D} (start : isdigit c ∨ c = 45) (all : ∀ c ∈ text, isNumber c)
    (decoded : ∀ rest, decodeNumber ⟨.number, c :: text ++ rest, rest⟩ = .ok v) : Reads v (c :: text) := by
  have opens : Opens (c :: text) := by
    have other : isSpace c = false ∧ c ≠ 93 := by
      rcases start with digit | rfl
      · obtain ⟨low, high⟩ := isdigit_iff.1 digit
        simp only [isSpace, Bool.or_eq_false_iff, decide_eq_false_iff_not]
        refine ⟨⟨⟨⟨?_, ?_⟩, ?_⟩, ?_⟩, ?_⟩ <;>
        · rintro rfl
          exact absurd digit (by decide)
      · decide
    exact ⟨c, text, List.dropWhile_cons_of_neg (by rw [other.1]; exact Bool.false_ne_true), other.2⟩
  refine .of_step opens ?_
  intro features_ rest errors current fuel stops enough
  rw [readValue, skipCommentTokens_eq (readToken_number start all stops) (by simp)]
  dsimp only
  rw [decoded]
  rfl

theorem reads_natText (fits : n ≤ 2 ^ 64 - 1) : Reads (D := D) (unsignedValue n) (natText n) := by
  obtain ⟨c, text, same, digit, all⟩ := natText_cons n
  rw [same]
  refine reads_number (.inl digit) (fun c mem => (isNumber_of_isdigit (all c mem)).1) fun rest => ?_
  exact decodeNumber_natText ((Token.text_eq _ _ _).trans same.symm) fits

theorem reads_negative (fits : n ≤ 2 ^ 63) : Reads (D := D) (.int (Int64.ofInt (-n))) (45 :: natText n) := by
  refine reads_number (.inr rfl) (fun c mem => (isNumber_of_isdigit (isdigit_decimalDigits c mem)).1) fun rest => ?_
  exact decodeNumber_negative (Token.text_eq _ _ _) fits

/-- The text of a number is a real number's, and it is scanned as the number. -/
structure Doubles.Exact (D : Doubles) (x : D.Double) : Prop where
  start : ∃ c text, D.print x = c :: text ∧ (isdigit c ∨ c = 45) ∧ ∀ c ∈ text, isNumber c
  point : (D.print x).any (fun c => c = 46 || c = 101 || c = 69 || c = 43) = true
  scan : D.scan (D.print x) = some x

theorem reads_real {x : D.Double} (exact' : D.Exact x) : Reads (.real x) (D.print x) := by
  obtain ⟨c, text, same, start, all⟩ := exact'.start
  have value : ∀ rest, decodeNumber (D := D) ⟨.number, c :: text ++ rest, rest⟩ = .ok (.real x) := by
    intro rest
    unfold decodeNumber
    dsimp only
    rw [Token.text_eq, ← same, exact'.point, Bool.true_or, if_pos rfl, decodeDouble, Token.text_eq, exact'.scan]
  rw [same]
  exact reads_number start all value

end Numbers

end GameServer.Json

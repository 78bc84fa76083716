import Mathlib.Data.List.TakeWhile
import GameServer.Lib.Decimal
import GameServer.Lib.Search

/-!
# Loading messages from a file

`load_proto` takes the comments out of the text, cuts it at the closing brackets, the parts at the opening ones, the fields at the
semicolons and each field at the equals sign, and takes what stands between blanks for label, type and name. What the functions it calls
do with the separators it gives them is here; what comes of a file is in `Proto.Files`.

A text is what was read of the file. `none` is an index behind the end of a vector.
-/

namespace GameServer.Proto

open GameServer.Lib

/-- What `load_proto` writes of a `Data`. -/
structure Row where
  index : Int
  name : List UInt8
  type : List UInt8
  proto_type : List UInt8
  deriving DecidableEq, Repr

section Model

/-- `SplitString` with one separator; it calls itself for what is behind it, with so many calls at most. -/
def splitString (spl : List UInt8) : Nat → List UInt8 → List (List UInt8)
  | 0, _ => []
  | calls + 1, str =>
    if str = [] then []
    else
      match findSub spl str with
      | some pos => (if pos ≠ 0 then [str.take pos] else []) ++ splitString spl calls (str.drop (pos + spl.length))
      | none => [str]

/-- `minpos`, and the length of `spl[vecpos]`. -/
def minPos (spl : List (List UInt8)) (str : List UInt8) : Option (Nat × Nat) :=
  spl.foldl
    (fun best d =>
      match findSub d str, best with
      | none, best => best
      | some pos, none => some (pos, d.length)
      | some pos, some (minpos, size) => if minpos > pos then some (pos, d.length) else some (minpos, size)) none

/-- `SplitString` with several separators. What is behind one is given on as a C string. -/
def splitStringAt (spl : List (List UInt8)) : Nat → List UInt8 → List (List UInt8)
  | 0, _ => []
  | calls + 1, str =>
    if str = [] then []
    else
      match minPos spl str with
      | some (minpos, size) =>
        (if minpos ≠ 0 then [str.take minpos] else []) ++ splitStringAt spl calls ((str.drop (minpos + size)).takeWhile (· ≠ 0))
      | none => [str]

/-- The loop of `erase_something`, with so many turns at most. -/
def eraseLoop (erase : List UInt8) : Nat → List UInt8 → List UInt8
  | 0, src => src
  | turns + 1, src =>
    match findSub erase src with
    | some pos => eraseLoop erase turns (src.take pos ++ src.drop (pos + erase.length))
    | none => src

def eraseSomething (src erase : List UInt8) : List UInt8 := if erase = [] then src else eraseLoop erase src.length src

/-- The loop that takes the comments out, with so many turns at most. -/
def eraseNotes : Nat → List UInt8 → List UInt8
  | 0, str => str
  | turns + 1, str =>
    match findSub [47, 47] str with
    | none => str
    | some notepos =>
      match findSub [10] (str.drop notepos) with
      | some npos => eraseNotes turns (str.take notepos ++ str.drop (notepos + npos + 1))
      | none => eraseNotes turns (str.take notepos)

/-- The characters of `Helper::Trim`. -/
def trimmed (c : UInt8) : Bool := c = 13 || c = 9 || c = 32

def trim (str : List UInt8) : List UInt8 := ((str.reverse.dropWhile trimmed).reverse).dropWhile trimmed

/-- The loop of `Helper::SplitString` from `start` on, for one blank as `delims` and without `allowempty`, with so many turns at most. -/
def wordsLoop : Nat → List UInt8 → List (List UInt8)
  | 0, _ => []
  | turns + 1, str =>
    match findSub [32] str with
    | some 0 => wordsLoop turns (str.drop 1)
    | none => [trim str]
    | some (pos + 1) => trim (str.take (pos + 1)) :: wordsLoop turns (str.drop (pos + 1 + 1))

def helperSplitString (str : List UInt8) : List (List UInt8) := if str = [] then [] else wordsLoop (str.length + 1) str

/-- The types that are not messages: `int32`, `int64`, `string` and `bool`. -/
def scalars : List (List UInt8) :=
  [[105, 110, 116, 51, 50], [105, 110, 116, 54, 52], [115, 116, 114, 105, 110, 103], [98, 111, 111, 108]]

instance (type : List UInt8) : Decidable (type ∈ scalars) := inferInstance

/-- The text `proto`. -/
def protoText : List UInt8 := [112, 114, 111, 116, 111]

/-- The text `repeated`. -/
def repeatedText : List UInt8 := [114, 101, 112, 101, 97, 116, 101, 100]

/-- One of `vec_filed`: a field, or what is none. -/
def loadField (filed : List UInt8) : Option (Option Row) :=
  match splitString [61] (filed.length + 1) filed with
  | [left_row, right_row] =>
    match helperSplitString left_row with
    | label :: type :: name :: _ =>
      let temp : Row := ⟨readInt (-2 ^ 31) (2 ^ 31 - 1) (eraseSomething right_row [32]), name, type, []⟩
      let temp := if temp.type ∉ scalars then { temp with proto_type := temp.type, type := protoText } else temp
      some (some (if label = repeatedText then { temp with type := temp.type ++ [95, 115] } else temp))
    | _ => none
  | _ => some none

/-- The text `message`. -/
def messageText : List UInt8 := [109, 101, 115, 115, 97, 103, 101]

/-- One of `message`: a name and its fields, or what is none. -/
def loadMessage (message : List UInt8) : Option (Option (List UInt8 × List Row)) :=
  match findSub (messageText ++ [32]) message with
  | none => some none
  | some messpos =>
    let message := message.drop (messpos + 8)
    match splitStringAt [[123]] (message.length + 1) message with
    | proto_name :: proto_field :: _ =>
      let proto_name := eraseSomething (eraseSomething (eraseSomething proto_name [10]) [32]) [9]
      let proto_field := eraseSomething (eraseSomething proto_field [9]) [10]
      ((splitString [59] (proto_field.length + 1) proto_field).mapM loadField).map fun data => some (proto_name, data.reduceOption)
    | _ => none

/-- What is before the first message goes. -/
def eraseHead (str : List UInt8) : List UInt8 :=
  match findSub messageText str with
  | some pos => str.drop pos
  | none => str

/-- `_proto_data_mgr[proto_name] = data`, if there is a message. -/
def storeMessage (_proto_data_mgr : List UInt8 → Option (List Row)) :
    Option (List UInt8 × List Row) → List UInt8 → Option (List Row)
  | some (proto_name, data) => Function.update _proto_data_mgr proto_name (some data)
  | none => _proto_data_mgr

/-- `load_proto`, where `str` was read. -/
def loadProto (_proto_data_mgr : List UInt8 → Option (List Row)) (str : List UInt8) : Option (List UInt8 → Option (List Row)) :=
  let str := eraseHead (eraseNotes str.length str)
  (splitString [125] (str.length + 1) str).foldlM
    (fun _proto_data_mgr message => (loadMessage message).map (storeMessage _proto_data_mgr)) _proto_data_mgr

end Model

section Separators

variable {spl str : List UInt8} {c : UInt8}

/-- `SplitString` yields what is between the separators, but the empty parts. -/
theorem splitString_eq (some' : spl ≠ []) {calls : Nat} (enough : str.length < calls) :
    splitString spl calls str = (pieces spl str).filter (· ≠ []) := by
  have pos := List.length_pos_of_ne_nil some'
  induction calls generalizing str with
  | zero => exact absurd enough (Nat.not_lt_zero _)
  | succ calls ih =>
    rw [splitString]
    split_ifs with empty
    · subst empty
      rw [pieces_eq_singleton (by simp [findSub, some'])]
      rfl
    · cases found : findSub spl str with
      | none =>
        rw [pieces_eq_singleton found]
        simp [empty]
      | some i =>
        have inside := add_length_le_of_findSub found
        have less : (str.drop (i + spl.length)).length < calls := by
          rw [List.length_drop]
          omega
        rw [pieces_eq_cons some' found, filter_take_cons (by omega), ← ih less]

/-- Of one separator it is the other function. -/
theorem splitStringAt_eq (text : 0 ∉ str) {calls : Nat} (enough : str.length < calls) (some' : spl ≠ []) :
    splitStringAt [spl] calls str = (pieces spl str).filter (· ≠ []) := by
  have pos := List.length_pos_of_ne_nil some'
  rw [← splitString_eq some' enough]
  induction calls generalizing str with
  | zero => rfl
  | succ calls ih =>
    rw [splitStringAt, splitString]
    split_ifs with empty
    · rfl
    · have first : minPos [spl] str = (findSub spl str).map fun pos => (pos, spl.length) := by
        rw [minPos, List.foldl_cons, List.foldl_nil]
        cases findSub spl str <;> rfl
      rw [first]
      cases found : findSub spl str with
      | none => rfl
      | some i =>
        have inside := add_length_le_of_findSub found
        have rest : 0 ∉ str.drop (i + spl.length) := fun mem => text (List.mem_of_mem_drop mem)
        have whole : (str.drop (i + spl.length)).takeWhile (· ≠ 0) = str.drop (i + spl.length) := by
          rw [List.takeWhile_eq_self_iff]
          intro d mem
          exact decide_eq_true fun zero => rest (zero ▸ mem)
        have less : (str.drop (i + spl.length)).length < calls := by
          rw [List.length_drop]
          omega
        simp only [Option.map_some, whole]
        rw [ih rest less]

theorem eraseLoop_eq {turns : Nat} (enough : str.length ≤ turns) : eraseLoop [c] turns str = str.filter (· ≠ c) := by
  induction turns generalizing str with
  | zero =>
    obtain rfl := List.length_eq_zero_iff.1 (Nat.le_zero.1 enough)
    rfl
  | succ turns ih =>
    rw [eraseLoop]
    by_cases mem : c ∈ str
    · obtain ⟨l, t, rfl, absent⟩ := List.eq_append_cons_of_mem mem
      have found : findSub [c] (l ++ c :: t) = some l.length := findSub_append rfl absent
      rw [found]
      simp only [List.take_left, List.length_singleton, ← List.drop_drop, List.drop_left, List.drop_succ_cons, List.drop_zero]
      have less : (l ++ t).length ≤ turns := by
        simp only [List.length_append, List.length_cons] at enough ⊢
        omega
      rw [ih less, List.filter_append, List.filter_append, List.filter_cons_of_neg (by simp)]
    · rw [findSub_of_not_mem rfl mem]
      refine (List.filter_eq_self.2 fun d there => ?_).symm
      exact decide_eq_true fun same => mem (same ▸ there)

/-- One character is taken out everywhere. -/
theorem eraseSomething_eq (str : List UInt8) (c : UInt8) : eraseSomething str [c] = str.filter (· ≠ c) := by
  rw [eraseSomething, if_neg (List.cons_ne_nil _ _)]
  exact eraseLoop_eq (Nat.le_refl _)

end Separators

section Words

variable {str u : List UInt8}

/-- A loop with enough turns. -/
def words (str : List UInt8) : List (List UInt8) := wordsLoop (str.length + 1) str

theorem wordsLoop_eq {turns : Nat} (enough : str.length < turns) : wordsLoop turns str = words str := by
  have same : ∀ n m : Nat, ∀ s : List UInt8, s.length < n → s.length < m → wordsLoop n s = wordsLoop m s := by
    intro n
    induction n with
    | zero => exact fun m s less => absurd less (Nat.not_lt_zero _)
    | succ n ih =>
      intro m s less less'
      obtain ⟨m, rfl⟩ : ∃ k, m = k + 1 := ⟨m - 1, by omega⟩
      rw [wordsLoop, wordsLoop]
      rcases found : findSub [32] s with _ | _ | i
      · rfl
      · have inside := add_length_le_of_findSub found
        simp only [List.length_singleton] at inside
        exact ih m (s.drop 1) (by rw [List.length_drop]; omega) (by rw [List.length_drop]; omega)
      · dsimp only
        have inside := add_length_le_of_findSub found
        simp only [List.length_singleton] at inside
        rw [ih m (s.drop (i + 1 + 1)) (by rw [List.length_drop]; omega) (by rw [List.length_drop]; omega)]
  exact same turns (str.length + 1) str enough (Nat.lt_succ_self _)

theorem words_blank (str : List UInt8) : words (32 :: str) = words str := by
  have found : findSub [32] (32 :: str) = some 0 := findSub_append_left
  rw [words, wordsLoop, found]
  exact wordsLoop_eq (Nat.lt_succ_self _)

theorem words_blanks (k : Nat) (str : List UInt8) : words (List.replicate k 32 ++ str) = words str := by
  induction k with
  | zero => rfl
  | succ k ih => rw [List.replicate_succ, List.cons_append, words_blank, ih]

theorem words_cons (some' : u ≠ []) (absent : 32 ∉ u) (str : List UInt8) : words (u ++ 32 :: str) = trim u :: words str := by
  have found : findSub [32] (u ++ 32 :: str) = some u.length := findSub_append rfl absent
  obtain ⟨k, length⟩ : ∃ k, u.length = k + 1 := Nat.exists_eq_succ_of_ne_zero (Nat.ne_of_gt (List.length_pos_of_ne_nil some'))
  rw [words, wordsLoop, found, length]
  dsimp only
  rw [← length, List.take_left, ← List.drop_drop, List.drop_left, List.drop_succ_cons, List.drop_zero]
  rw [wordsLoop_eq]
  rw [List.length_append, List.length_cons]
  omega

theorem words_last (absent : 32 ∉ u) : words u = [trim u] := by
  rw [words, wordsLoop, findSub_of_not_mem rfl absent]

/-- A text without blanks is not trimmed. -/
theorem trim_eq (plain : ∀ c ∈ u, trimmed c = false) : trim u = u := by
  have first : ∀ l : List UInt8, (∀ c ∈ l, trimmed c = false) → l.dropWhile trimmed = l := by
    intro l plain
    cases l with
    | nil => rfl
    | cons c l =>
      have here := plain c List.mem_cons_self
      rw [List.dropWhile_cons_of_neg (by rw [here]; exact Bool.false_ne_true)]
  have back : ∀ c ∈ u.reverse, trimmed c = false := fun c mem => plain c (List.mem_reverse.1 mem)
  rw [trim, first _ back, List.reverse_reverse, first _ plain]

end Words

end GameServer.Proto

import Mathlib.Data.List.ReduceOption
import GameServer.Proto.Loading

/-!
# What comes of a file

A file has messages, a message has fields, and between them are blanks and comments. The comments go with the ends of their lines, and
what is left is cut at characters that stand nowhere else, so every field is found as it is written. Only between the brackets something
must be left: an empty part is no part, and the code looks for the fields behind the end of the vector (`loadProto_iff`).
-/

namespace GameServer.Proto

open GameServer.Lib

/-- A character that stands in a word: none of those that separate words, fields or messages, or begin a comment. -/
def wordChar (c : UInt8) : Bool := c ∉ ([0, 9, 10, 13, 32, 47, 59, 61, 123, 125] : List UInt8)

/-- A blank, a tab, a newline or a comment with its newline. -/
inductive Filler where
  | blank (c : UInt8)
  | note (text : List UInt8)
  deriving DecidableEq, Repr

def Filler.bytes : Filler → List UInt8
  | .blank c => [c]
  | .note text => [47, 47] ++ (text ++ [10])

/-- What is left of it. -/
def Filler.plain : Filler → List UInt8
  | .blank c => [c]
  | .note _ => []

def Filler.WellFormed : Filler → Prop
  | .blank c => c = 9 ∨ c = 10 ∨ c = 32
  | .note text => 10 ∉ text

instance : (x : Filler) → Decidable x.WellFormed
  | .blank c => inferInstanceAs (Decidable (c = 9 ∨ c = 10 ∨ c = 32))
  | .note text => inferInstanceAs (Decidable (10 ∉ text))

/-- A field, with one blank more than is said behind label and type, and as many as are said behind the name, the equals sign and the
number. -/
structure FieldText where
  label : List UInt8
  afterLabel : Nat
  type : List UInt8
  afterType : Nat
  name : List UInt8
  afterName : Nat
  afterEquals : Nat
  number : List UInt8
  afterNumber : Nat

def blanks (n : Nat) : List UInt8 := List.replicate n 32

namespace FieldText

variable (f : FieldText)

def left : List UInt8 := f.label ++ 32 :: (blanks f.afterLabel ++ (f.type ++ 32 :: (blanks f.afterType ++ (f.name ++ blanks f.afterName))))

def right : List UInt8 := blanks f.afterEquals ++ (f.number ++ blanks f.afterNumber)

/-- A field without its semicolon. -/
def bytes : List UInt8 := f.left ++ 61 :: f.right

structure WellFormed : Prop where
  label : f.label ≠ [] ∧ ∀ c ∈ f.label, wordChar c
  type : f.type ≠ [] ∧ ∀ c ∈ f.type, wordChar c
  name : f.name ≠ [] ∧ ∀ c ∈ f.name, wordChar c
  number : f.number ≠ [] ∧ ∀ c ∈ f.number, isdigit c
  small : decimal f.number < 2 ^ 31

instance : Decidable f.WellFormed :=
  decidable_of_iff (((!f.label.isEmpty && f.label.all wordChar) && (!f.type.isEmpty && f.type.all wordChar) &&
      (!f.name.isEmpty && f.name.all wordChar) && (!f.number.isEmpty && f.number.all isdigit) && decimal f.number < 2 ^ 31) = true) <| by
    simp only [Bool.and_eq_true, Bool.not_eq_true', List.isEmpty_eq_false_iff, List.all_eq_true, decide_eq_true_eq]
    exact ⟨fun ⟨⟨⟨⟨label, type⟩, name⟩, number⟩, small⟩ => ⟨label, type, name, number, small⟩,
      fun ⟨label, type, name, number, small⟩ => ⟨⟨⟨⟨label, type⟩, name⟩, number⟩, small⟩⟩

/-- The entry of a field: its name and number, the type `proto` for a message, and `_s` behind the type of a repeated field. -/
def declared : Row where
  index := decimal f.number
  name := f.name
  type := (if f.type ∈ scalars then f.type else protoText) ++ if f.label = repeatedText then [95, 115] else []
  proto_type := if f.type ∈ scalars then [] else f.type

end FieldText

/-- A message: behind the word `message` and a blank the name, with white space around it, and in brackets the fields, each with what is
behind its semicolon. -/
structure MessageText where
  lead : List UInt8
  name : List UInt8
  trail : List UInt8
  gap : List Filler
  fields : List (FieldText × List Filler)

section Texts

variable (render : Filler → List UInt8)

def fieldsText (fields : List (FieldText × List Filler)) : List UInt8 :=
  fields.flatMap fun field => field.1.bytes ++ 59 :: field.2.flatMap render

namespace MessageText

variable (m : MessageText)

def body : List UInt8 := m.gap.flatMap render ++ fieldsText render m.fields

def head : List UInt8 := m.lead ++ (m.name ++ m.trail)

/-- A message without its closing bracket. -/
def bytes : List UInt8 := messageText ++ 32 :: (m.head ++ 123 :: m.body render)

def entries : List Row := m.fields.map fun field => field.1.declared

end MessageText

def messagesText (messages : List (MessageText × List Filler)) : List UInt8 :=
  messages.flatMap fun message => message.1.bytes render ++ 125 :: message.2.flatMap render

end Texts

def whiteSpace (c : UInt8) : Bool := c = 9 || c = 10 || c = 32

structure MessageText.WellFormed (m : MessageText) : Prop where
  lead : ∀ c ∈ m.lead, whiteSpace c
  name : m.name ≠ [] ∧ ∀ c ∈ m.name, wordChar c
  trail : ∀ c ∈ m.trail, whiteSpace c
  gap : ∀ x ∈ m.gap, x.WellFormed
  fields : ∀ field ∈ m.fields, field.1.WellFormed ∧ ∀ x ∈ field.2, x.WellFormed

instance (m : MessageText) : Decidable m.WellFormed :=
  decidable_of_iff ((m.lead.all whiteSpace && (!m.name.isEmpty && m.name.all wordChar) && m.trail.all whiteSpace &&
      m.gap.all (fun x => x.WellFormed) && m.fields.all fun field => field.1.WellFormed && field.2.all fun x => x.WellFormed) = true) <| by
    simp only [Bool.and_eq_true, Bool.not_eq_true', List.isEmpty_eq_false_iff, List.all_eq_true, decide_eq_true_eq]
    exact ⟨fun ⟨⟨⟨⟨lead, name⟩, trail⟩, gap⟩, fields⟩ => ⟨lead, name, trail, gap, fields⟩,
      fun ⟨lead, name, trail, gap, fields⟩ => ⟨⟨⟨⟨lead, name⟩, trail⟩, gap⟩, fields⟩⟩

/-- A file: messages, each with what is behind it, and maybe a comment at the end that no newline ends. -/
structure FileText where
  gap : List Filler
  messages : List (MessageText × List Filler)
  last : Option (List UInt8)

namespace FileText

variable (file : FileText)

def bytes : List UInt8 :=
  file.gap.flatMap Filler.bytes ++ messagesText Filler.bytes file.messages ++ (file.last.elim [] fun text => [47, 47] ++ text)

structure WellFormed : Prop where
  gap : ∀ x ∈ file.gap, x.WellFormed
  messages : ∀ message ∈ file.messages, message.1.WellFormed ∧ ∀ x ∈ message.2, x.WellFormed
  last : ∀ text ∈ file.last, 10 ∉ text

instance : Decidable file.WellFormed :=
  decidable_of_iff ((file.gap.all (fun x => x.WellFormed) &&
      file.messages.all (fun message => message.1.WellFormed && message.2.all fun x => x.WellFormed) &&
      file.last.all fun text => 10 ∉ text) = true) <| by
    simp only [Bool.and_eq_true, List.all_eq_true, Option.all_eq_true, decide_eq_true_eq]
    exact ⟨fun ⟨⟨gap, messages⟩, last⟩ => ⟨gap, messages, last⟩, fun ⟨gap, messages, last⟩ => ⟨⟨gap, messages⟩, last⟩⟩

/-- One entry for every message, in their order. -/
def load (_proto_data_mgr : List UInt8 → Option (List Row)) : List UInt8 → Option (List Row) :=
  file.messages.foldl (fun _proto_data_mgr message => storeMessage _proto_data_mgr (some (message.1.name, message.1.entries))) _proto_data_mgr

end FileText

section Notes

variable {s s' t t' : List UInt8}

/-- The comments of `s` are taken out and leave `t`, whatever is before and behind. -/
def Cleans (s t : List UInt8) : Prop :=
  47 ∉ t ∧ ∃ k, k ≤ s.length ∧ ∀ turns before rest, 47 ∉ before →
    eraseNotes (turns + k) (before ++ (s ++ rest)) = eraseNotes turns (before ++ (t ++ rest))

theorem Cleans.refl (plain : 47 ∉ s) : Cleans s s := ⟨plain, 0, Nat.zero_le _, fun _ _ _ _ => rfl⟩

theorem Cleans.append (first : Cleans s t) (second : Cleans s' t') : Cleans (s ++ s') (t ++ t') := by
  obtain ⟨plain, k, le, first⟩ := first
  obtain ⟨plain', k', le', second⟩ := second
  refine ⟨by rw [List.mem_append]; exact fun mem => mem.elim plain plain', k + k', ?_, fun turns before rest free => ?_⟩
  · rw [List.length_append]
    omega
  · have free' : 47 ∉ before ++ t := by
      rw [List.mem_append]
      exact fun mem => mem.elim free plain
    have one := first (turns + k') before (s' ++ rest) free
    have two := second turns (before ++ t) rest free'
    rw [List.append_assoc, List.append_assoc] at two
    rw [List.append_assoc, List.append_assoc, ← two, ← one]
    congr 1
    omega

theorem Cleans.flatMap {A : Type} {f g : A → List UInt8} {xs : List A} (each : ∀ x ∈ xs, Cleans (f x) (g x)) :
    Cleans (xs.flatMap f) (xs.flatMap g) := by
  induction xs with
  | nil => exact .refl (List.not_mem_nil)
  | cons x xs ih =>
    rw [List.flatMap_cons, List.flatMap_cons]
    exact (each x List.mem_cons_self).append (ih fun y mem => each y (List.mem_cons_of_mem x mem))

/-- A comment. -/
theorem cleans_note {text : List UInt8} (line : 10 ∉ text) : Cleans ([47, 47] ++ (text ++ [10])) [] := by
  refine ⟨List.not_mem_nil, 1, by simp, fun turns before rest free => ?_⟩
  have found : findSub [47, 47] (before ++ ([47, 47] ++ (text ++ [10]) ++ rest)) = some before.length := by
    rw [List.append_assoc]
    exact findSub_append rfl free
  have line' : 10 ∉ [47, 47] ++ text := by simpa using line
  have ends : findSub [10] (([47, 47] ++ text) ++ ([10] ++ rest)) = some ([47, 47] ++ text).length := findSub_append rfl line'
  rw [eraseNotes, found]
  simp only [List.drop_left]
  have split : [47, 47] ++ (text ++ [10]) ++ rest = ([47, 47] ++ text) ++ ([10] ++ rest) := by
    simp only [List.append_assoc]
  rw [split, ends]
  simp only [List.take_left, List.nil_append]
  rw [Nat.add_assoc, ← List.drop_drop, List.drop_left]
  have behind : (([47, 47] ++ text) ++ ([10] ++ rest)).drop (([47, 47] ++ text).length + 1) = rest := by
    rw [← List.drop_drop, List.drop_left]
    rfl
  rw [behind]

theorem cleans_filler {x : Filler} (wellFormed : x.WellFormed) : Cleans x.bytes x.plain := by
  cases x with
  | blank c =>
    refine .refl ?_
    rcases wellFormed with rfl | rfl | rfl <;> decide
  | note text => exact cleans_note wellFormed

theorem eraseNotes_plain (turns : Nat) (plain : 47 ∉ s) : eraseNotes turns s = s := by
  cases turns with
  | zero => rfl
  | succ turns =>
    have none' : findSub [47, 47] s = none := findSub_of_not_mem rfl plain
    rw [eraseNotes, none']

/-- A text whose comments leave `t`, and a comment without an end. -/
theorem Cleans.eraseNotes (cleans : Cleans s t) (last : Option (List UInt8)) (line : ∀ text ∈ last, 10 ∉ text) :
    Proto.eraseNotes (s ++ last.elim [] fun text => [47, 47] ++ text).length (s ++ last.elim [] fun text => [47, 47] ++ text) = t := by
  obtain ⟨plain, k, le, same⟩ := cleans
  cases last with
  | none =>
    obtain ⟨turns, length⟩ : ∃ turns, (s ++ []).length = turns + k := ⟨(s ++ []).length - k, by simp; omega⟩
    have whole := same turns [] [] List.not_mem_nil
    rw [Option.elim_none, length]
    rw [List.nil_append, List.nil_append, List.append_nil] at whole
    rw [List.append_nil] at whole ⊢
    rw [whole, eraseNotes_plain turns plain]
  | some text =>
    have line' : 10 ∉ [47, 47] ++ text := by simpa using line text rfl
    obtain ⟨turns, length⟩ : ∃ turns, (s ++ ([47, 47] ++ text)).length = turns + 1 + k :=
      ⟨(s ++ ([47, 47] ++ text)).length - k - 1, by simp; omega⟩
    have whole := same (turns + 1) [] ([47, 47] ++ text) List.not_mem_nil
    have found : findSub [47, 47] (t ++ ([47, 47] ++ text)) = some t.length := findSub_append rfl plain
    have none' : findSub [10] ([47, 47] ++ text) = none := findSub_of_not_mem rfl line'
    rw [Option.elim_some, length]
    rw [List.nil_append, List.nil_append] at whole
    rw [whole, Proto.eraseNotes, found]
    simp only [List.drop_left, none', List.take_left]
    exact eraseNotes_plain turns plain

end Notes

section Characters

variable {f : FieldText} {m : MessageText} {gap : List Filler} {c d : UInt8}

theorem ne_of_wordChar (word : wordChar d) (special : wordChar c = false) : d ≠ c := by
  rintro rfl
  rw [word] at special
  cases special

theorem ne_of_isdigit (digit : isdigit d) (special : isdigit c = false) : d ≠ c := by
  rintro rfl
  rw [digit] at special
  cases special

theorem not_mem_blanks {n : Nat} (other : c ≠ 32) : c ∉ blanks n := fun mem => other (List.eq_of_mem_replicate mem)

theorem FieldText.WellFormed.not_mem_left (wellFormed : f.WellFormed) (special : wordChar c = false) (other : c ≠ 32) : c ∉ f.left := by
  obtain ⟨⟨-, label⟩, ⟨-, type⟩, ⟨-, name⟩, -, -⟩ := wellFormed
  intro mem
  simp only [FieldText.left, List.mem_append, List.mem_cons] at mem
  rcases mem with mem | rfl | mem | mem | rfl | mem | mem | mem
  · exact ne_of_wordChar (label c mem) special rfl
  · exact other rfl
  · exact not_mem_blanks other mem
  · exact ne_of_wordChar (type c mem) special rfl
  · exact other rfl
  · exact not_mem_blanks other mem
  · exact ne_of_wordChar (name c mem) special rfl
  · exact not_mem_blanks other mem

theorem FieldText.WellFormed.not_mem_right (wellFormed : f.WellFormed) (special : isdigit c = false) (other : c ≠ 32) : c ∉ f.right := by
  obtain ⟨-, digits⟩ := wellFormed.number
  intro mem
  simp only [FieldText.right, List.mem_append] at mem
  rcases mem with mem | mem | mem
  · exact not_mem_blanks other mem
  · exact ne_of_isdigit (digits c mem) special rfl
  · exact not_mem_blanks other mem

theorem FieldText.WellFormed.not_mem_bytes (wellFormed : f.WellFormed) (special : wordChar c = false) (special' : isdigit c = false)
    (other : c ≠ 32) (other' : c ≠ 61) : c ∉ f.bytes := by
  rw [FieldText.bytes, List.mem_append, List.mem_cons, not_or, not_or]
  exact ⟨wellFormed.not_mem_left special other, other', wellFormed.not_mem_right special' other⟩

theorem whiteSpace_iff : whiteSpace c ↔ c = 9 ∨ c = 10 ∨ c = 32 := by
  simp only [whiteSpace, Bool.or_eq_true, decide_eq_true_eq, or_assoc]

/-- Of what is between fields and messages only white space is left. -/
theorem whiteSpace_of_mem (wellFormed : ∀ x ∈ gap, x.WellFormed) (mem : c ∈ gap.flatMap Filler.plain) : whiteSpace c := by
  obtain ⟨x, listed, mem⟩ := List.mem_flatMap.1 mem
  cases x with
  | blank d =>
    obtain rfl := List.mem_singleton.1 mem
    exact whiteSpace_iff.2 (wellFormed _ listed)
  | note text => cases mem

theorem ne_of_whiteSpace (white : whiteSpace d) (special : whiteSpace c = false) : d ≠ c := by
  rintro rfl
  rw [white] at special
  cases special

theorem not_mem_gap (wellFormed : ∀ x ∈ gap, x.WellFormed) (special : whiteSpace c = false) : c ∉ gap.flatMap Filler.plain :=
  fun mem => ne_of_whiteSpace (whiteSpace_of_mem wellFormed mem) special rfl

theorem MessageText.WellFormed.not_mem_head (wellFormed : m.WellFormed) (special : wordChar c = false) (other : whiteSpace c = false) :
    c ∉ m.head := by
  rw [MessageText.head, List.mem_append, List.mem_append, not_or, not_or]
  exact ⟨fun mem => ne_of_whiteSpace (wellFormed.lead c mem) other rfl, fun mem => ne_of_wordChar (wellFormed.name.2 c mem) special rfl,
    fun mem => ne_of_whiteSpace (wellFormed.trail c mem) other rfl⟩

theorem MessageText.WellFormed.not_mem_body (wellFormed : m.WellFormed) (special : wordChar c = false) (special' : isdigit c = false)
    (other : whiteSpace c = false) (other' : c ≠ 61) (other'' : c ≠ 59) : c ∉ m.body Filler.plain := by
  have blank : c ≠ 32 := by
    rintro rfl
    cases other
  rw [MessageText.body, fieldsText, List.mem_append, not_or]
  refine ⟨not_mem_gap wellFormed.gap other, fun mem => ?_⟩
  obtain ⟨field, listed, mem⟩ := List.mem_flatMap.1 mem
  obtain ⟨here, behind⟩ := wellFormed.fields field listed
  rcases List.mem_append.1 mem with mem | mem
  · exact here.not_mem_bytes special special' blank other' mem
  · rcases List.mem_cons.1 mem with rfl | mem
    · exact other'' rfl
    · exact not_mem_gap behind other mem

end Characters

section Fields

variable {f g : FieldText}

theorem trim_word {u : List UInt8} (word : ∀ c ∈ u, wordChar c) : trim u = u := by
  apply trim_eq
  intro c mem
  have here := word c mem
  simp only [trimmed, Bool.or_eq_false_iff, decide_eq_false_iff_not]
  exact ⟨⟨ne_of_wordChar here (by decide), ne_of_wordChar here (by decide)⟩, ne_of_wordChar here (by decide)⟩

/-- The words of the left side. -/
theorem FieldText.WellFormed.words_left (wellFormed : f.WellFormed) : ∃ rest, words f.left = f.label :: f.type :: f.name :: rest := by
  obtain ⟨⟨label, label'⟩, ⟨type, type'⟩, ⟨name, name'⟩, -, -⟩ := wellFormed
  have free : ∀ {u : List UInt8}, (∀ c ∈ u, wordChar c) → 32 ∉ u :=
    fun word mem => ne_of_wordChar (word 32 mem) (by decide) rfl
  rw [FieldText.left, words_cons label (free label'), trim_word label', blanks, words_blanks, words_cons type (free type'),
    trim_word type', blanks, words_blanks, blanks]
  cases f.afterName with
  | zero =>
    rw [List.replicate_zero, List.append_nil, words_last (free name'), trim_word name']
    exact ⟨[], rfl⟩
  | succ n =>
    rw [List.replicate_succ, words_cons name (free name'), trim_word name']
    exact ⟨_, rfl⟩

theorem FieldText.WellFormed.number_right (wellFormed : f.WellFormed) :
    readInt (-2 ^ 31) (2 ^ 31 - 1) (eraseSomething f.right [32]) = decimal f.number := by
  obtain ⟨some', digits⟩ := wellFormed.number
  have small := wellFormed.small
  have gone : ∀ n, (blanks n).filter (· ≠ 32) = [] := by
    intro n
    rw [List.filter_eq_nil_iff]
    intro c mem
    simpa using List.eq_of_mem_replicate mem
  have kept : f.number.filter (· ≠ 32) = f.number := by
    rw [List.filter_eq_self]
    exact fun c mem => decide_eq_true (ne_of_isdigit (digits c mem) (by decide))
  rw [eraseSomething_eq, FieldText.right, List.filter_append, List.filter_append, gone, gone, kept, List.nil_append, List.append_nil,
    readInt_digits some' digits]
  omega

/-- **A field** is loaded as it is declared, with any blanks before it. -/
theorem FieldText.WellFormed.loadField (wellFormed : f.WellFormed) (n : Nat) :
    loadField (blanks n ++ f.bytes) = some (some f.declared) := by
  have equals : 61 ∉ blanks n ++ f.left := by
    rw [List.mem_append]
    exact fun mem => mem.elim (not_mem_blanks (by decide)) (wellFormed.not_mem_left (by decide) (by decide))
  have left : blanks n ++ f.left ≠ [] := by
    rw [FieldText.left]
    simp
  have right : f.right ≠ [] := by
    rw [FieldText.right]
    simp [wellFormed.number.1]
  have sides : pieces [61] (blanks n ++ f.bytes) = [blanks n ++ f.left, f.right] := by
    have cut : pieces [61] ((blanks n ++ f.left) ++ ([61] ++ f.right)) = (blanks n ++ f.left) :: pieces [61] f.right := pieces_append rfl equals
    rw [pieces_of_not_mem rfl (wellFormed.not_mem_right (by decide) (by decide))] at cut
    rw [FieldText.bytes, ← cut]
    simp only [List.append_assoc, List.cons_append, List.nil_append]
  obtain ⟨rest, words⟩ := wellFormed.words_left
  have split : helperSplitString (blanks n ++ f.left) = f.label :: f.type :: f.name :: rest := by
    rw [helperSplitString, if_neg left]
    exact (words_blanks n f.left).trans words
  rw [Proto.loadField, splitString_eq (List.cons_ne_nil _ _) (Nat.lt_succ_self _), sides]
  simp only [List.filter_cons, left, right, ne_eq, not_false_eq_true, decide_true, if_true, List.filter_nil, split]
  rw [wellFormed.number_right, FieldText.declared]
  by_cases scalar : f.type ∈ scalars <;> by_cases repeated : f.label = repeatedText <;> simp [scalar, repeated]

/-- Blanks are no field. -/
theorem loadField_blanks (n : Nat) : loadField (blanks n) = some none := by
  have equals : 61 ∉ blanks n := not_mem_blanks (by decide)
  rw [loadField, splitString_eq (List.cons_ne_nil _ _) (Nat.lt_succ_self _), pieces_of_not_mem rfl equals]
  cases n with
  | zero => rfl
  | succ n => rfl

theorem append_mark_inj {t : List UInt8} {p q : Prop} [Decidable p] [Decidable q]
    (same : (t ++ if p then [95, 115] else []) = t ++ if q then [95, 115] else []) : p ↔ q := by
  have mark : ∀ (p : Prop) [Decidable p], p ↔ (if p then [95, 115] else [] : List UInt8) ≠ [] := by
    intro p _
    by_cases here : p <;> simp [here]
  rw [mark p, mark q, List.append_cancel_left same]

theorem scalars_mark_inj {s t : List UInt8} {p q : Prop} [Decidable p] [Decidable q] (scalar : s ∈ scalars) (scalar' : t ∈ scalars)
    (same : (s ++ if p then [95, 115] else []) = t ++ if q then [95, 115] else []) : s = t := by
  have apart : ∀ s ∈ scalars, ∀ t ∈ scalars, s = t ∨ s.take 4 ≠ t.take 4 ∧ 4 ≤ s.length ∧ 4 ≤ t.length := by decide
  rcases apart s scalar t scalar' with rfl | ⟨ne, le, le'⟩
  · rfl
  · have heads := congrArg (List.take 4) same
    rw [List.take_append_of_le_length le, List.take_append_of_le_length le'] at heads
    exact absurd heads ne

/-- An entry tells number, name, type and whether the field is repeated. -/
theorem FieldText.WellFormed.declared_eq_iff (wellFormed : f.WellFormed) (wellFormed' : g.WellFormed) :
    f.declared = g.declared ↔
      decimal f.number = decimal g.number ∧ f.name = g.name ∧ f.type = g.type ∧ (f.label = repeatedText ↔ g.label = repeatedText) := by
  constructor
  · intro same
    simp only [declared, Row.mk.injEq, Nat.cast_inj] at same
    obtain ⟨number, name, type, proto_type⟩ := same
    refine ⟨number, name, ?_⟩
    by_cases scalar : f.type ∈ scalars <;> by_cases scalar' : g.type ∈ scalars
    · rw [if_pos scalar, if_pos scalar'] at type
      have types := scalars_mark_inj scalar scalar' type
      rw [types] at type
      exact ⟨types, append_mark_inj type⟩
    · rw [if_pos scalar, if_neg scalar'] at proto_type
      exact absurd proto_type.symm wellFormed'.type.1
    · rw [if_neg scalar, if_pos scalar'] at proto_type
      exact absurd proto_type wellFormed.type.1
    · rw [if_neg scalar, if_neg scalar'] at type proto_type
      exact ⟨proto_type, append_mark_inj type⟩
  · rintro ⟨number, name, type, mark⟩
    simp only [declared, number, name, type, mark]

end Fields

section Bodies

variable {m : MessageText} {gap : List Filler} {s t : List UInt8}

/-- What `load_proto` leaves of the fields of a message. -/
def oneLine (s : List UInt8) : List UInt8 := eraseSomething (eraseSomething s [9]) [10]

theorem oneLine_eq (s : List UInt8) : oneLine s = (s.filter (· ≠ 9)).filter (· ≠ 10) := by rw [oneLine, eraseSomething_eq, eraseSomething_eq]

theorem oneLine_append (s t : List UInt8) : oneLine (s ++ t) = oneLine s ++ oneLine t := by
  simp only [oneLine_eq, List.filter_append]

theorem oneLine_plain (tab : 9 ∉ s) (newline : 10 ∉ s) : oneLine s = s := by
  rw [oneLine_eq, List.filter_filter, List.filter_eq_self]
  intro c mem
  simp only [Bool.and_eq_true, decide_eq_true_eq]
  exact ⟨fun same => newline (same ▸ mem), fun same => tab (same ▸ mem)⟩

/-- Blanks are left of white space. -/
theorem oneLine_white (white : ∀ c ∈ s, whiteSpace c) : ∃ n, oneLine s = blanks n := by
  refine ⟨(oneLine s).length, List.eq_replicate_of_mem fun c mem => ?_⟩
  rw [oneLine_eq, List.mem_filter, List.mem_filter, decide_eq_true_eq, decide_eq_true_eq] at mem
  obtain ⟨⟨mem, tab⟩, newline⟩ := mem
  rcases whiteSpace_iff.1 (white c mem) with rfl | rfl | rfl
  · exact absurd rfl tab
  · exact absurd rfl newline
  · rfl

/-- The line that `load_proto` makes of the fields. -/
theorem MessageText.WellFormed.oneLine_body (wellFormed : m.WellFormed) :
    oneLine (m.body Filler.plain) = oneLine (m.gap.flatMap Filler.plain) ++
      m.fields.flatMap fun field => field.1.bytes ++ 59 :: oneLine (field.2.flatMap Filler.plain) := by
  have each := wellFormed.fields
  rw [MessageText.body, oneLine_append, fieldsText]
  congr 1
  generalize m.fields = fields at each ⊢
  induction fields with
  | nil => rfl
  | cons field fields ih =>
    obtain ⟨⟨here, -⟩, rest⟩ := List.forall_mem_cons.1 each
    have tab : 9 ∉ field.1.bytes ++ [59] := by
      rw [List.mem_append]
      exact fun mem => mem.elim (here.not_mem_bytes (by decide) (by decide) (by decide) (by decide)) (by decide)
    have newline : 10 ∉ field.1.bytes ++ [59] := by
      rw [List.mem_append]
      exact fun mem => mem.elim (here.not_mem_bytes (by decide) (by decide) (by decide) (by decide)) (by decide)
    rw [List.flatMap_cons, List.flatMap_cons, oneLine_append, ih rest, List.append_cons, oneLine_append, oneLine_plain tab newline,
      ← List.append_cons]

/-- The parts of the line are the fields, and maybe blanks behind the last. -/
theorem loadFields {fields : List (FieldText × List Filler)} (each : ∀ field ∈ fields, field.1.WellFormed ∧ ∀ x ∈ field.2, x.WellFormed)
    (n : Nat) :
    ∃ data, ((terminated (fun field => field.1.bytes) (fun field => oneLine (field.2.flatMap Filler.plain)) (blanks n) fields).filter
      (· ≠ [])).mapM loadField = some data ∧ data.reduceOption = fields.map fun field => field.1.declared := by
  induction fields generalizing n with
  | nil =>
    rw [terminated]
    cases n with
    | zero => exact ⟨[], rfl, rfl⟩
    | succ n =>
      refine ⟨[none], ?_, rfl⟩
      have kept : [blanks (n + 1)].filter (· ≠ []) = [blanks (n + 1)] := rfl
      rw [kept, List.mapM_cons, loadField_blanks]
      rfl
  | cons field fields ih =>
    obtain ⟨⟨here, behind⟩, rest⟩ := List.forall_mem_cons.1 each
    obtain ⟨k, line⟩ := oneLine_white fun c mem => whiteSpace_of_mem behind mem
    obtain ⟨data, mapped, reduced⟩ := ih rest k
    have some' : blanks n ++ field.1.bytes ≠ [] := by
      rw [FieldText.bytes]
      simp
    refine ⟨some field.1.declared :: data, ?_, ?_⟩
    · have kept : (blanks n ++ field.1.bytes ≠ []) = True := eq_true some'
      rw [terminated, line, List.filter_cons]
      simp only [kept, decide_true, if_true]
      rw [List.mapM_cons, here.loadField, mapped]
      rfl
    · rw [List.reduceOption_cons_of_some, reduced, List.map_cons]

end Bodies

section Messages

variable {m : MessageText} {w : List UInt8}

/-- The name of a message, without the white space around it. -/
theorem MessageText.WellFormed.name_head (wellFormed : m.WellFormed) :
    eraseSomething (eraseSomething (eraseSomething m.head [10]) [32]) [9] = m.name := by
  have white : ∀ s : List UInt8, ((s.filter (· ≠ 10)).filter (· ≠ 32)).filter (· ≠ 9) = s.filter fun c => !whiteSpace c := by
    intro s
    rw [List.filter_filter, List.filter_filter]
    apply List.filter_congr
    intro c _
    rw [Bool.eq_iff_iff]
    simp only [Bool.and_eq_true, decide_eq_true_eq, Bool.not_eq_true', ← Bool.not_eq_true, whiteSpace_iff, not_or]
    exact ⟨fun ⟨⟨tab, blank⟩, newline⟩ => ⟨tab, newline, blank⟩, fun ⟨tab, newline, blank⟩ => ⟨⟨tab, blank⟩, newline⟩⟩
  have gone : ∀ s : List UInt8, (∀ c ∈ s, whiteSpace c) → s.filter (fun c => !whiteSpace c) = [] := by
    intro s all
    rw [List.filter_eq_nil_iff]
    intro c mem
    simp [all c mem]
  have kept : m.name.filter (fun c => !whiteSpace c) = m.name := by
    rw [List.filter_eq_self]
    intro c mem
    have word := wellFormed.name.2 c mem
    rw [Bool.not_eq_true', ← Bool.not_eq_true, whiteSpace_iff, not_or, not_or]
    exact ⟨ne_of_wordChar word (by decide), ne_of_wordChar word (by decide), ne_of_wordChar word (by decide)⟩
  rw [eraseSomething_eq, eraseSomething_eq, eraseSomething_eq, white, MessageText.head, List.filter_append, List.filter_append,
    gone _ wellFormed.lead, kept, gone _ wellFormed.trail, List.nil_append, List.append_nil]

/-- The text behind `message ` is cut at its bracket, and an empty part is left out. -/
theorem MessageText.WellFormed.cut (wellFormed : m.WellFormed) :
    splitStringAt [[123]] ((m.head ++ 123 :: m.body Filler.plain).length + 1) (m.head ++ 123 :: m.body Filler.plain) =
      m.head :: if m.body Filler.plain = [] then [] else [m.body Filler.plain] := by
  have text : 0 ∉ m.head ++ 123 :: m.body Filler.plain := by
    rw [List.mem_append, List.mem_cons, not_or, not_or]
    exact ⟨wellFormed.not_mem_head (by decide) (by decide), by decide,
      wellFormed.not_mem_body (by decide) (by decide) (by decide) (by decide) (by decide)⟩
  have head : m.head ≠ [] := by
    rw [MessageText.head]
    simp [wellFormed.name.1]
  have bracket : pieces [123] (m.head ++ 123 :: m.body Filler.plain) = m.head :: pieces [123] (m.body Filler.plain) :=
    pieces_append rfl (wellFormed.not_mem_head (by decide) (by decide))
  rw [pieces_of_not_mem rfl (wellFormed.not_mem_body (by decide) (by decide) (by decide) (by decide) (by decide))] at bracket
  rw [splitStringAt_eq text (Nat.lt_succ_self _) (List.cons_ne_nil _ _), bracket]
  by_cases empty : m.body Filler.plain = [] <;> simp [head, empty]

/-- White space is no message. -/
theorem loadMessage_white (white : ∀ c ∈ w, whiteSpace c) : loadMessage w = some none := by
  have absent : 109 ∉ w := fun mem => ne_of_whiteSpace (white 109 mem) (by decide) rfl
  have none' : findSub (messageText ++ [32]) w = none := findSub_of_not_mem rfl absent
  rw [loadMessage, none']

/-- **A message**, with white space before it, is loaded as it is declared if there is something between its brackets. -/
theorem MessageText.WellFormed.loadMessage (wellFormed : m.WellFormed) (white : ∀ c ∈ w, whiteSpace c) :
    loadMessage (w ++ m.bytes Filler.plain) = if m.body Filler.plain = [] then none else some (some (m.name, m.entries)) := by
  have absent : 109 ∉ w := fun mem => ne_of_whiteSpace (white 109 mem) (by decide) rfl
  have whole : w ++ m.bytes Filler.plain = w ++ ((messageText ++ [32]) ++ (m.head ++ 123 :: m.body Filler.plain)) := by
    rw [MessageText.bytes, List.append_cons messageText]
  have found : findSub (messageText ++ [32]) (w ++ m.bytes Filler.plain) = some w.length := by
    rw [whole]
    exact findSub_append rfl absent
  have behind : (w ++ m.bytes Filler.plain).drop (w.length + 8) = m.head ++ 123 :: m.body Filler.plain := by
    rw [whole, ← List.drop_drop, List.drop_left]
    rfl
  rw [Proto.loadMessage, found]
  simp only [behind, wellFormed.cut]
  split_ifs with empty
  · rfl
  · obtain ⟨n, line⟩ := oneLine_white fun c mem => whiteSpace_of_mem wellFormed.gap mem
    obtain ⟨data, mapped, reduced⟩ := loadFields wellFormed.fields n
    have semicolons : 59 ∉ blanks n := not_mem_blanks (by decide)
    have each : ∀ field ∈ m.fields, 59 ∉ field.1.bytes ∧ 59 ∉ oneLine (field.2.flatMap Filler.plain) := by
      intro field mem
      obtain ⟨here, behind⟩ := wellFormed.fields field mem
      obtain ⟨k, line⟩ := oneLine_white fun c mem => whiteSpace_of_mem behind mem
      rw [line]
      exact ⟨here.not_mem_bytes (by decide) (by decide) (by decide) (by decide), not_mem_blanks (by decide)⟩
    have parts := pieces_terminated semicolons each
    rw [← line, ← wellFormed.oneLine_body, line] at parts
    change ((splitString [59] ((oneLine (m.body Filler.plain)).length + 1) (oneLine (m.body Filler.plain))).mapM loadField).map
      (fun data => some (_, data.reduceOption)) = _
    rw [splitString_eq (List.cons_ne_nil _ _) (Nat.lt_succ_self _), parts, mapped, wellFormed.name_head, Option.map_some, reduced]
    rfl

end Messages

section Whole

variable {file : FileText} {messages : List (MessageText × List Filler)} {w : List UInt8}

theorem cleans_gap {gap : List Filler} (wellFormed : ∀ x ∈ gap, x.WellFormed) : Cleans (gap.flatMap Filler.bytes) (gap.flatMap Filler.plain) :=
  .flatMap fun x mem => cleans_filler (wellFormed x mem)

theorem cleans_cons {s t : List UInt8} {c : UInt8} (plain : c ≠ 47) (cleans : Cleans s t) : Cleans (c :: s) (c :: t) := by
  have one : Cleans [c] [c] := .refl fun mem => plain (List.mem_singleton.1 mem).symm
  exact one.append cleans

theorem MessageText.WellFormed.cleans {m : MessageText} (wellFormed : m.WellFormed) : Cleans (m.bytes Filler.bytes) (m.bytes Filler.plain) := by
  have fields : Cleans (fieldsText Filler.bytes m.fields) (fieldsText Filler.plain m.fields) := by
    refine .flatMap fun field mem => ?_
    obtain ⟨here, behind⟩ := wellFormed.fields field mem
    refine .append (.refl ?_) (cleans_cons (by decide) (cleans_gap behind))
    exact here.not_mem_bytes (by decide) (by decide) (by decide) (by decide)
  have head : Cleans m.head m.head := .refl (wellFormed.not_mem_head (by decide) (by decide))
  have body := (cleans_gap wellFormed.gap).append fields
  have word : Cleans messageText messageText := .refl (by decide)
  exact word.append (cleans_cons (by decide) (head.append (cleans_cons (by decide) body)))

/-- What is left of a file when the comments are taken out. -/
theorem FileText.WellFormed.eraseNotes (wellFormed : file.WellFormed) :
    eraseNotes file.bytes.length file.bytes = file.gap.flatMap Filler.plain ++ messagesText Filler.plain file.messages := by
  have messages : Cleans (messagesText Filler.bytes file.messages) (messagesText Filler.plain file.messages) := by
    refine .flatMap fun message mem => ?_
    obtain ⟨here, behind⟩ := wellFormed.messages message mem
    exact here.cleans.append (cleans_cons (by decide) (cleans_gap behind))
  exact ((cleans_gap wellFormed.gap).append messages).eraseNotes file.last wellFormed.last

/-- The word `message` is not found before the first message. -/
theorem FileText.WellFormed.eraseHead (wellFormed : file.WellFormed) :
    ∃ w, (∀ c ∈ w, whiteSpace c) ∧ eraseHead (file.gap.flatMap Filler.plain ++ messagesText Filler.plain file.messages) =
      w ++ messagesText Filler.plain file.messages := by
  have absent : 109 ∉ file.gap.flatMap Filler.plain := not_mem_gap wellFormed.gap (by decide)
  cases file.messages with
  | nil =>
    have none' : findSub messageText (file.gap.flatMap Filler.plain) = none := findSub_of_not_mem rfl absent
    refine ⟨file.gap.flatMap Filler.plain, fun c mem => whiteSpace_of_mem wellFormed.gap mem, ?_⟩
    rw [messagesText, List.flatMap_nil, List.append_nil, Proto.eraseHead, none']
  | cons message messages =>
    obtain ⟨rest, begins⟩ : ∃ rest, messagesText Filler.plain (message :: messages) = messageText ++ rest := by
      rw [messagesText, List.flatMap_cons, MessageText.bytes, List.append_assoc, List.append_assoc]
      exact ⟨_, rfl⟩
    refine ⟨[], fun c mem => absurd mem List.not_mem_nil, ?_⟩
    rw [begins, Proto.eraseHead, findSub_append rfl absent]
    simp only [List.drop_left, List.nil_append]

/-- The parts of the file are the messages, and maybe white space behind the last. -/
theorem loadMessages (each : ∀ message ∈ messages, message.1.WellFormed ∧ ∀ x ∈ message.2, x.WellFormed) (white : ∀ c ∈ w, whiteSpace c)
    (_proto_data_mgr : List UInt8 → Option (List Row)) :
    ((terminated (fun message => message.1.bytes Filler.plain) (fun message => message.2.flatMap Filler.plain) w messages).filter
      (· ≠ [])).foldlM (fun _proto_data_mgr message => (loadMessage message).map (storeMessage _proto_data_mgr)) _proto_data_mgr =
      if ∀ message ∈ messages, message.1.body Filler.plain ≠ [] then
        some (messages.foldl
          (fun _proto_data_mgr message => storeMessage _proto_data_mgr (some (message.1.name, message.1.entries))) _proto_data_mgr)
      else none := by
  induction messages generalizing w _proto_data_mgr with
  | nil =>
    rw [terminated, if_pos (fun message mem => absurd mem List.not_mem_nil)]
    by_cases empty : w = []
    · subst empty
      rfl
    · have kept : [w].filter (· ≠ []) = [w] := by simp [empty]
      rw [kept, List.foldlM_cons, loadMessage_white white]
      rfl
  | cons message messages ih =>
    obtain ⟨⟨here, behind⟩, rest⟩ := List.forall_mem_cons.1 each
    have some' : (w ++ message.1.bytes Filler.plain ≠ []) = True := by
      rw [MessageText.bytes]
      simp
    rw [terminated, List.filter_cons]
    simp only [some', decide_true, if_true]
    rw [List.foldlM_cons, here.loadMessage white]
    by_cases empty : message.1.body Filler.plain = []
    · rw [if_pos empty, if_neg fun all => all message List.mem_cons_self empty]
      rfl
    · rw [if_neg empty]
      refine (ih rest (fun c mem => whiteSpace_of_mem behind mem) _).trans ?_
      simp only [List.forall_mem_cons, ne_eq, empty, not_false_eq_true, true_and, List.foldl_cons]

theorem MessageText.body_ne_nil {m : MessageText} : m.body Filler.plain ≠ [] ↔ m.fields ≠ [] ∨ ∃ c, Filler.blank c ∈ m.gap := by
  have gap : m.gap.flatMap Filler.plain ≠ [] ↔ ∃ c, Filler.blank c ∈ m.gap := by
    constructor
    · intro some'
      obtain ⟨c, mem⟩ := List.exists_mem_of_ne_nil _ some'
      obtain ⟨x, listed, mem⟩ := List.mem_flatMap.1 mem
      cases x with
      | blank d => exact ⟨d, listed⟩
      | note text => cases mem
    · rintro ⟨c, mem⟩
      exact List.ne_nil_of_mem (List.mem_flatMap.2 ⟨_, mem, List.mem_cons_self⟩)
  have fields : fieldsText Filler.plain m.fields ≠ [] ↔ m.fields ≠ [] := by
    rw [fieldsText]
    cases m.fields with
    | nil => simp
    | cons field fields => simp
  rw [MessageText.body, Ne, List.append_eq_nil_iff, not_and_or, or_comm]
  exact or_congr fields gap

/-- **A file** is loaded as it is declared exactly if in every message there is something between the brackets, a field or a blank, a tab
or a newline that is not in a comment. -/
theorem loadProto_iff (wellFormed : file.WellFormed) (_proto_data_mgr : List UInt8 → Option (List Row)) :
    loadProto _proto_data_mgr file.bytes = some (file.load _proto_data_mgr) ↔
      ∀ message ∈ file.messages, message.1.fields ≠ [] ∨ ∃ c, Filler.blank c ∈ message.1.gap := by
  obtain ⟨w, white, begins⟩ := wellFormed.eraseHead
  have free : 125 ∉ w := fun mem => ne_of_whiteSpace (white 125 mem) (by decide) rfl
  have each : ∀ message ∈ file.messages, 125 ∉ message.1.bytes Filler.plain ∧ 125 ∉ message.2.flatMap Filler.plain := by
    intro message mem
    obtain ⟨here, behind⟩ := wellFormed.messages message mem
    refine ⟨?_, not_mem_gap behind (by decide)⟩
    rw [MessageText.bytes, List.mem_append, List.mem_cons, List.mem_append, List.mem_cons, not_or, not_or, not_or, not_or]
    exact ⟨by decide, by decide, here.not_mem_head (by decide) (by decide), by decide,
      here.not_mem_body (by decide) (by decide) (by decide) (by decide) (by decide)⟩
  have parts := pieces_terminated free each
  have loaded := loadMessages wellFormed.messages white _proto_data_mgr
  rw [← parts, ← splitString_eq (List.cons_ne_nil _ _) (Nat.lt_succ_self _)] at loaded
  rw [loadProto, wellFormed.eraseNotes, begins]
  refine (Eq.congr_left loaded).trans ?_
  simp only [← MessageText.body_ne_nil]
  split_ifs with all
  · exact iff_of_true rfl all
  · exact iff_of_false (fun same => by cases same) all

/-- Two messages with comments that hold the characters of the grammar:
`message A{//{` newline `a int32 x = 1;` newline `repeated B y=23 ;//}` newline `}` newline `message B{ }//;`. -/
def twoMessages : FileText where
  gap := []
  messages :=
    [(⟨[], [65], [], [.note [123]],
        [(⟨[97], 0, [105, 110, 116, 51, 50], 0, [120], 1, 1, [49], 0⟩, [.blank 10]),
          (⟨repeatedText, 0, [66], 0, [121], 0, 0, [50, 51], 1⟩, [.note [125]])]⟩, [.blank 10]),
      (⟨[], [66], [], [.blank 32], []⟩, [])]
  last := some [59]

theorem loadProto_two :
    loadProto (fun _ => none) twoMessages.bytes = some (twoMessages.load fun _ => none) ∧
      twoMessages.load (fun _ => none) [65] =
        some [⟨1, [120], [105, 110, 116, 51, 50], []⟩, ⟨23, [121], protoText ++ [95, 115], [66]⟩] ∧
      twoMessages.load (fun _ => none) [66] = some [] := by
  have wellFormed : twoMessages.WellFormed := by decide
  refine ⟨(loadProto_iff wellFormed _).2 ?_, by decide, by decide⟩
  intro message mem
  simp [twoMessages] at mem
  rcases mem with rfl | rfl
  · exact .inl (List.cons_ne_nil _ _)
  · exact .inr ⟨32, List.mem_cons_self⟩

/-- `message A {}`. -/
def noFields : FileText where
  gap := []
  messages := [(⟨[], [65], [32], [], []⟩, [])]
  last := none

/-- The fields are looked for behind the end of a vector. -/
theorem loadProto_noFields :
    noFields.WellFormed ∧ noFields.bytes = messageText ++ [32, 65, 32, 123, 125] ∧
      loadProto (fun _ => none) noFields.bytes ≠ some (noFields.load fun _ => none) := by
  have undefined : (loadProto (fun _ => none) noFields.bytes).isNone := by decide
  refine ⟨by decide, by decide, fun same => ?_⟩
  rw [same] at undefined
  cases undefined

end Whole

end GameServer.Proto

import Mathlib.Data.List.Basic

/-!
# Two encodings of a text

A text is a list of characters, `utf8` its bytes and `utf16` its 16-bit units. The first byte of a character tells how many
follow, and the first unit of a character is the second one of none: a text that occurs in the units of another one occurs in the
text itself (`utf16_occurs`). A character outside the basic plane has two units and four bytes, every other one has one unit.
-/

namespace GameServer.Lib

variable {c d : Char} {cs ds ks pre post : List Char}

def utf8 (cs : List Char) : List UInt8 := cs.flatMap String.utf8EncodeChar

/-- In the basic plane. -/
def Basic (c : Char) : Prop := c.toNat < 0x10000

instance : DecidablePred Basic := fun _ => inferInstanceAs (Decidable (_ < _))

def utf16Char (c : Char) : List UInt16 :=
  if Basic c then [UInt16.ofNat c.toNat]
  else [UInt16.ofNat (0xD800 + (c.toNat - 0x10000) / 0x400), UInt16.ofNat (0xDC00 + (c.toNat - 0x10000) % 0x400)]

def utf16 (cs : List Char) : List UInt16 := cs.flatMap utf16Char

@[simp] theorem utf8_nil : utf8 [] = [] := rfl
@[simp] theorem utf8_cons : utf8 (c :: cs) = String.utf8EncodeChar c ++ utf8 cs := rfl
@[simp] theorem utf8_append : utf8 (cs ++ ds) = utf8 cs ++ utf8 ds := List.flatMap_append
@[simp] theorem utf16_nil : utf16 [] = [] := rfl
@[simp] theorem utf16_cons : utf16 (c :: cs) = utf16Char c ++ utf16 cs := rfl
@[simp] theorem utf16_append : utf16 (cs ++ ds) = utf16 cs ++ utf16 ds := List.flatMap_append

/-- The first byte of a character, by the number of bytes that follow. -/
inductive Lead (c : Char) (lead : UInt8) : Nat → Prop where
  | one (ascii : c.toNat < 0x80) (most : lead.toNat < 0x80) : Lead c lead 0
  | two (ascii : 0x80 ≤ c.toNat) (basic : Basic c) (least : 0xC0 ≤ lead.toNat) (most : lead.toNat < 0xE0) : Lead c lead 1
  | three (ascii : 0x80 ≤ c.toNat) (basic : Basic c) (least : 0xE0 ≤ lead.toNat) (most : lead.toNat < 0xF0) : Lead c lead 2
  | four (ascii : 0x80 ≤ c.toNat) (basic : ¬ Basic c) (least : 0xF0 ≤ lead.toNat) (most : lead.toNat < 0xF8) : Lead c lead 3

/-- The bytes of a character. -/
theorem utf8EncodeChar_eq (c : Char) : ∃ lead tail, String.utf8EncodeChar c = lead :: tail ∧ Lead c lead tail.length ∧
    ∀ b ∈ tail, 0x80 ≤ b.toNat ∧ b.toNat < 0xC0 := by
  have more : ∀ n : Nat, 0x80 ≤ (UInt8.ofNat (n % 0x40 + 0x80)).toNat ∧ (UInt8.ofNat (n % 0x40 + 0x80)).toNat < 0xC0 := by
    intro n
    rw [UInt8.toNat_ofNat']
    omega
  have range : c.toNat < 0x110000 := by
    rcases c.valid with low | high
    · exact Nat.lt_trans low (by decide)
    · exact high.2
  rw [String.utf8EncodeChar]
  have val : c.val.toNat = c.toNat := rfl
  rw [val]
  split_ifs with one two three
  · refine ⟨_, [], rfl, .one (Nat.lt_succ_of_le one) ?_, nofun⟩
    rw [UInt8.toNat_ofNat']
    omega
  · refine ⟨_, [_], rfl, .two ?_ ?_ ?_ ?_, by simpa using more _⟩
    · omega
    · rw [Basic]
      omega
    · rw [UInt8.toNat_ofNat']
      omega
    · rw [UInt8.toNat_ofNat']
      omega
  · refine ⟨_, [_, _], rfl, .three ?_ ?_ ?_ ?_, by simpa using ⟨more _, more _⟩⟩
    · omega
    · rw [Basic]
      omega
    · rw [UInt8.toNat_ofNat']
      omega
    · rw [UInt8.toNat_ofNat']
      omega
  · refine ⟨_, [_, _, _], rfl, .four ?_ ?_ ?_ ?_, by simpa using ⟨more _, more _, more _⟩⟩
    · omega
    · rw [Basic]
      omega
    · rw [UInt8.toNat_ofNat']
      omega
    · rw [UInt8.toNat_ofNat']
      omega

/-- No byte of a text is `0xFF`. -/
theorem lt_of_mem_utf8 {b : UInt8} (mem : b ∈ utf8 cs) : b.toNat < 0xF8 := by
  obtain ⟨c, -, mem⟩ := List.mem_flatMap.1 mem
  obtain ⟨lead, tail, is, lead', more⟩ := utf8EncodeChar_eq c
  rw [is, List.mem_cons] at mem
  rcases mem with rfl | mem
  · generalize tail.length = n at lead'
    cases lead' <;> omega
  · have bounds := more b mem
    omega

theorem length_utf16Char : (utf16Char c).length = if Basic c then 1 else 2 := by
  by_cases basic : Basic c
  · rw [utf16Char, if_pos basic, if_pos basic]
    rfl
  · rw [utf16Char, if_neg basic, if_neg basic]
    rfl

/-- A character has a byte for each unit, and outside the basic plane more. -/
theorem length_utf16Char_le : (utf16Char c).length ≤ (String.utf8EncodeChar c).length ∧
    (¬ Basic c → (utf16Char c).length < (String.utf8EncodeChar c).length) := by
  obtain ⟨lead, tail, is, lead', -⟩ := utf8EncodeChar_eq c
  rw [is, List.length_cons, length_utf16Char]
  generalize tail.length = n at lead'
  cases lead' with
  | one ascii =>
    have basic : Basic c := Nat.lt_trans ascii (by decide)
    simp [basic]
  | two _ basic => simp [basic]
  | three _ basic => simp [basic]
  | four _ basic => simp [basic]

theorem length_utf16_le : (utf16 cs).length ≤ (utf8 cs).length := by
  induction cs with
  | nil => exact Nat.le_refl _
  | cons c cs ih =>
    rw [utf16_cons, utf8_cons, List.length_append, List.length_append]
    exact Nat.add_le_add length_utf16Char_le.1 ih

/-- A text with a character outside the basic plane has more bytes than units. -/
theorem length_utf16_lt (outside : ∃ c ∈ cs, ¬ Basic c) : (utf16 cs).length < (utf8 cs).length := by
  obtain ⟨c, mem, outside⟩ := outside
  obtain ⟨pre, post, rfl⟩ := List.append_of_mem mem
  have before := @length_utf16_le pre
  have after := @length_utf16_le post
  have here := length_utf16Char_le.2 outside
  simp only [utf16_append, utf8_append, utf16_cons, utf8_cons, List.length_append]
  omega

theorem length_le_utf16 : cs.length ≤ (utf16 cs).length := by
  induction cs with
  | nil => exact Nat.le_refl _
  | cons c cs ih =>
    have some' : 1 ≤ (utf16Char c).length := by
      rw [length_utf16Char]
      split_ifs <;> decide
    rw [utf16_cons, List.length_append, List.length_cons]
    omega

/-- A text has one unit for each character exactly when all are in the basic plane. -/
theorem length_utf16_eq_iff : (utf16 cs).length = cs.length ↔ ∀ c ∈ cs, Basic c := by
  induction cs with
  | nil => simp
  | cons c cs ih =>
    have least := @length_le_utf16 cs
    rw [utf16_cons, List.length_append, List.length_cons, List.forall_mem_cons, ← ih, length_utf16Char]
    split_ifs with basic
    · simp only [basic, true_and]
      omega
    · simp only [basic, false_and, iff_false]
      omega

/-- A text is found in its bytes by their number. -/
theorem append_inj_of_utf8 {xs ys : List Char} (same : pre ++ xs = ks ++ ys) (length : (utf8 pre).length = (utf8 ks).length) :
    pre = ks ∧ xs = ys := by
  have none' : ∀ zs : List Char, (utf8 zs).length = 0 → zs = [] := by
    intro zs zero
    cases zs with
    | nil => rfl
    | cons z zs =>
      obtain ⟨lead, tail, is, -⟩ := utf8EncodeChar_eq z
      rw [utf8_cons, is] at zero
      simp at zero
  rcases List.append_eq_append_iff.1 same with ⟨zs, rfl, rfl⟩ | ⟨zs, rfl, rfl⟩
  · rw [utf8_append, List.length_append] at length
    rw [none' zs (by omega)]
    simp
  · rw [utf8_append, List.length_append] at length
    rw [none' zs (by omega)]
    simp

theorem range_toNat (c : Char) : c.toNat < 0xD800 ∨ 0xDFFF < c.toNat ∧ c.toNat < 0x110000 := c.valid

/-- The first unit of a character is not the second one of another. -/
theorem utf16Char_eq (c : Char) : ∃ first rest, utf16Char c = first :: rest ∧
    ¬ (0xDC00 ≤ first.toNat ∧ first.toNat < 0xE000) ∧
    (rest = [] ∨ ∃ second, rest = [second] ∧ 0xDC00 ≤ second.toNat ∧ second.toNat < 0xE000) := by
  have range := range_toNat c
  by_cases basic : Basic c
  · rw [utf16Char, if_pos basic]
    rw [Basic] at basic
    refine ⟨_, [], rfl, ?_, .inl rfl⟩
    rw [UInt16.toNat_ofNat']
    omega
  · rw [utf16Char, if_neg basic]
    rw [Basic] at basic
    refine ⟨_, [_], rfl, ?_, .inr ⟨_, rfl, ?_⟩⟩
    · rw [UInt16.toNat_ofNat']
      omega
    · rw [UInt16.toNat_ofNat']
      omega

/-- The units of a character are not the first ones of another. -/
theorem utf16Char_inj {xs ys : List UInt16} (same : utf16Char c ++ xs = utf16Char d ++ ys) : c = d := by
  have rangeC := range_toNat c
  have rangeD := range_toNat d
  have units : ∀ m n : Nat, UInt16.ofNat m = UInt16.ofNat n → m % 0x10000 = n % 0x10000 := by
    intro m n same
    have toNat := congrArg UInt16.toNat same
    rwa [UInt16.toNat_ofNat', UInt16.toNat_ofNat'] at toNat
  apply Char.ext
  apply UInt32.toNat_inj.1
  show c.toNat = d.toNat
  rw [utf16Char, utf16Char] at same
  split_ifs at same with basicC basicD basicD <;> simp only [Basic] at basicC basicD
  · have first := units _ _ (List.cons.inj same).1
    omega
  · have first := units _ _ (List.cons.inj same).1
    omega
  · have first := units _ _ (List.cons.inj same).1
    omega
  · obtain ⟨first, same⟩ := List.cons.inj same
    have first := units _ _ first
    have second := units _ _ (List.cons.inj same).1
    omega

/-- A text that is the beginning of the units is the beginning of the text. -/
theorem utf16_begins (start : utf16 ks <+: utf16 cs) : ks <+: cs := by
  induction ks generalizing cs with
  | nil => exact List.nil_prefix
  | cons k ks ih =>
    obtain ⟨rest, start⟩ := start
    cases cs with
    | nil =>
      obtain ⟨first, tail, is, -⟩ := utf16Char_eq k
      rw [utf16_cons, is] at start
      cases start
    | cons c cs =>
      rw [utf16_cons, utf16_cons, List.append_assoc] at start
      obtain rfl := utf16Char_inj start
      rw [List.append_cancel_left_eq] at start
      exact List.cons_prefix_cons.2 ⟨rfl, ih ⟨rest, start⟩⟩

/-- A text that occurs in the units of another occurs in the text, and the units before it are those of the text before it. -/
theorem utf16_occurs {i : Nat} (some' : ks ≠ []) (start : utf16 ks <+: (utf16 cs).drop i) :
    ∃ pre post, cs = pre ++ post ∧ (utf16 pre).length = i ∧ ks <+: post := by
  induction cs generalizing i with
  | nil =>
    cases ks with
    | nil => exact absurd rfl some'
    | cons k ks =>
      obtain ⟨first, tail, is, -⟩ := utf16Char_eq k
      rw [utf16_nil, List.drop_nil, List.prefix_nil, utf16_cons, is] at start
      cases start
  | cons c cs ih =>
    by_cases here : i = 0
    · subst here
      exact ⟨[], c :: cs, rfl, rfl, utf16_begins start⟩
    by_cases past : (utf16Char c).length ≤ i
    · have rest : (utf16 (c :: cs)).drop i = (utf16 cs).drop (i - (utf16Char c).length) := by
        rw [utf16_cons, List.drop_append, List.drop_eq_nil_of_le past, List.nil_append]
      rw [rest] at start
      obtain ⟨pre, post, rfl, length, start⟩ := ih start
      refine ⟨c :: pre, post, rfl, ?_, start⟩
      rw [utf16_cons, List.length_append, length]
      omega
    · -- the second unit of a character
      obtain ⟨first, rest, is, -, rest'⟩ := utf16Char_eq c
      rw [is] at past
      rcases rest' with rfl | ⟨second, rfl, low⟩
      · simp at past
        omega
      · obtain rfl : i = 1 := by
          simp at past
          omega
        cases ks with
        | nil => exact absurd rfl some'
        | cons k ks =>
          obtain ⟨first', rest', is', high, -⟩ := utf16Char_eq k
          rw [utf16_cons, utf16_cons, is, is'] at start
          simp only [List.cons_append, List.drop_succ_cons, List.drop_zero, List.cons_prefix_cons] at start
          rw [start.1] at high
          exact absurd low high

end GameServer.Lib

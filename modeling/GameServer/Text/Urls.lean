import GameServer.Lib.Bytes

/-!
# The coding of URLs

`url_encode` escapes a string byte by byte, and the first loop of `url_decode` takes the escapes back. The second loop reads the
result as UTF-8 and makes one byte of every character, which nothing in `url_encode` answers to: what comes back is the string
that was encoded if and only if it is ASCII, and short enough for the `int` that counts its bytes (`url_decode_encode_iff`). `none`
is undefined behaviour: a byte behind the end of a string, and a `char` that `isxdigit` is not defined for.
-/

namespace GameServer.Text

open GameServer.Lib

/-- `isalnum` of an `unsigned char`, in the C locale. -/
def isalnum (ch : UInt8) : Bool :=
  (0x30 ≤ ch && ch ≤ 0x39) || (0x41 ≤ ch && ch ≤ 0x5A) || (0x61 ≤ ch && ch ≤ 0x7A)

/-- `isxdigit` of a `char`. -/
def isxdigit (c : UInt8) : Option Bool :=
  if c < 0x80 then some ((0x30 ≤ c && c ≤ 0x39) || (0x41 ≤ c && c ≤ 0x46) || (0x61 ≤ c && c ≤ 0x66)) else none

def hex : List UInt8 := [0x30, 0x31, 0x32, 0x33, 0x34, 0x35, 0x36, 0x37, 0x38, 0x39, 0x41, 0x42, 0x43, 0x44, 0x45, 0x46]

/-- What the loop of `url_encode` makes of a byte. -/
def urlByte (ch : UInt8) : List UInt8 :=
  if isalnum ch then [ch]
  else if ch = 0x20 then [0x2B]
  else [0x25, hex.getD (ch.toNat / 16) 0, hex.getD (ch.toNat % 16) 0]

def url_encode (src : List UInt8) : List UInt8 := src.flatMap urlByte

/-- The value of a hexadecimal digit. -/
def xdigit (c : UInt8) : Int := c.toNat - 48 - (if 0x41 ≤ c then 7 else 0) - (if 0x61 ≤ c then 32 else 0)

/-- `isxdigit(c1) && isxdigit(c2)`. -/
def isxdigits (c1 c2 : UInt8) : Option Bool := (isxdigit c1).bind fun first => if first then isxdigit c2 else some false

/-- The first loop of `url_decode`, on the rest of the string from `i` on, with `srclen - i` bytes to go. The byte behind a string
is a `NUL`. -/
def percentLoop : List UInt8 → Nat → Option (List UInt8)
  | _, 0 => some []
  | [], left + 1 => if left = 0 then some [0] else none
  | c :: src, left + 1 =>
    if c = 0x25 then
      match src with
      | c1 :: c2 :: rest => (isxdigits c1 c2).bind fun both =>
        if both then (percentLoop rest (left - 2)).map (UInt8.ofInt (xdigit c1 * 16 + xdigit c2) :: ·)
        else percentLoop (c1 :: c2 :: rest) left
      | [c1] => (isxdigit c1).bind fun _ => percentLoop [c1] left
      | [] => percentLoop [] left
    else (percentLoop src left).map ((if c = 0x2B then 0x20 else c) :: ·)

/-- `s[i]`, where `s` is a `c_str()` and `i` an `int`. -/
def charAt (s : List UInt8) (i : Nat) : Option Nat :=
  if 2 ^ 31 ≤ i then none else if i = s.length then some 0 else s[i]?.map UInt8.toNat

/-- The character at `*pi`, and `*pi` after it. -/
def utf8_decode (s : List UInt8) (i : Nat) : Option (Nat × Nat) := do
  let c ← charAt s i
  if c &&& 128 = 0 then some (c, i + 1)
  else if c &&& 224 = 192 then
    let c1 ← charAt s (i + 1)
    some (((c &&& 31) <<< 6) + (c1 &&& 63), i + 2)
  else if c &&& 240 = 224 then
    let c1 ← charAt s (i + 1)
    let c2 ← charAt s (i + 2)
    some (((c &&& 15) <<< 12) + ((c1 &&& 63) <<< 6) + (c2 &&& 63), i + 3)
  else if c &&& 248 = 240 then
    let c1 ← charAt s (i + 1)
    let c2 ← charAt s (i + 2)
    let c3 ← charAt s (i + 3)
    some (((c &&& 7) <<< 18) + ((c1 &&& 63) <<< 12) + ((c2 &&& 63) <<< 6) + (c3 &&& 63), i + 4)
  else if c &&& 252 = 248 then
    let c1 ← charAt s (i + 1)
    let c2 ← charAt s (i + 2)
    let c3 ← charAt s (i + 3)
    let c4 ← charAt s (i + 4)
    some (((c &&& 3) <<< 24) + ((c1 &&& 63) <<< 18) + ((c2 &&& 63) <<< 12) + ((c3 &&& 63) <<< 6) + (c4 &&& 63), i + 5)
  else if c &&& 254 = 252 then
    let c1 ← charAt s (i + 1)
    let c2 ← charAt s (i + 2)
    let c3 ← charAt s (i + 3)
    let c4 ← charAt s (i + 4)
    let c5 ← charAt s (i + 5)
    some (((c &&& 1) <<< 30) + ((c1 &&& 63) <<< 24) + ((c2 &&& 63) <<< 18) + ((c3 &&& 63) <<< 12) + ((c4 &&& 63) <<< 6) +
      (c5 &&& 63), i + 6)
  else some (0x3F, i + 1)

/-- The second loop, for as many rounds as `fuel` allows. -/
def utf8Loop (dst : List UInt8) (len : Nat) : Nat → Nat → Option (List UInt8)
  | 0, pos => if pos < len then none else some []
  | fuel + 1, pos =>
    if pos < len then do
      let (nvalue, pos) ← utf8_decode dst pos
      (utf8Loop dst len fuel pos).map (UInt8.ofNat nvalue :: ·)
    else some []

/-- `int srclen = src.size()`, compared with a `size_t`. -/
def srclen (size : Nat) : Nat := (toInt32 size % 2 ^ 64).toNat

/-- `int len = dst.size()`, compared with an `unsigned int`. -/
def dstlen (size : Nat) : Nat := (toInt32 size % 2 ^ 32).toNat

def url_decode (src : List UInt8) : Option (List UInt8) := do
  let dst ← percentLoop src (srclen src.length)
  utf8Loop dst (dstlen dst.length) (dstlen dst.length) 0

section Escapes

variable {s src rest dst : List UInt8} {left : Nat}

/-- A byte that is no alphanumeric and no blank is escaped by two digits that stand for it. -/
theorem xdigits (c : UInt8) : isxdigits (hex.getD (c.toNat / 16) 0) (hex.getD (c.toNat % 16) 0) = some true ∧
    UInt8.ofInt (xdigit (hex.getD (c.toNat / 16) 0) * 16 + xdigit (hex.getD (c.toNat % 16) 0)) = c := by
  obtain ⟨⟨c⟩⟩ := c
  revert c
  decide +kernel

theorem isalnum_ne {c : UInt8} (alnum : isalnum c) : c ≠ 0x25 ∧ c ≠ 0x2B := by
  constructor
  · rintro rfl
    exact absurd alnum (by decide)
  · rintro rfl
    exact absurd alnum (by decide)

theorem percentLoop_other {c : UInt8} (other : c ≠ 0x25) (src : List UInt8) (left : Nat) :
    percentLoop (c :: src) (left + 1) = (percentLoop src left).map ((if c = 0x2B then 0x20 else c) :: ·) := by
  match src with
  | [] => exact if_neg other
  | [_] => exact if_neg other
  | _ :: _ :: _ => exact if_neg other

/-- One byte is taken back. -/
theorem percentLoop_urlByte (c : UInt8) (rest : List UInt8) (left : Nat) :
    percentLoop (urlByte c ++ rest) ((urlByte c).length + left) = (percentLoop rest left).map (c :: ·) := by
  unfold urlByte
  split
  · next alnum =>
    obtain ⟨percent, plus⟩ := isalnum_ne alnum
    rw [List.singleton_append, List.length_singleton, Nat.add_comm, percentLoop_other percent, if_neg plus]
  split
  · next blank =>
    rw [List.singleton_append, List.length_singleton, Nat.add_comm, percentLoop_other (by decide), if_pos rfl, blank]
  · obtain ⟨digits, value⟩ := xdigits c
    have length : [0x25, hex.getD (c.toNat / 16) 0, hex.getD (c.toNat % 16) 0].length + left = left + 2 + 1 := Nat.add_comm _ _
    rw [length, List.cons_append, List.cons_append, List.cons_append, List.nil_append, percentLoop]
    simp only [if_true, digits, Option.bind_some, value, Nat.add_sub_cancel]

theorem percentLoop_encode (s : List UInt8) : percentLoop (url_encode s) (url_encode s).length = some s := by
  induction s with
  | nil => rfl
  | cons c s ih =>
    rw [url_encode, List.flatMap_cons, List.length_append, percentLoop_urlByte]
    rw [url_encode] at ih
    rw [ih, Option.map_some]

theorem length_urlByte (c : UInt8) : 1 ≤ (urlByte c).length ∧ (urlByte c).length ≤ 3 := by
  unfold urlByte
  split_ifs <;> simp

theorem length_url_encode (s : List UInt8) : s.length ≤ (url_encode s).length ∧ (url_encode s).length ≤ 3 * s.length := by
  induction s with
  | nil => decide
  | cons c s ih =>
    have here := length_urlByte c
    rw [url_encode, List.flatMap_cons, List.length_append, List.length_cons]
    rw [url_encode] at ih
    omega

/-- The loop writes at most one byte for each that it counts. -/
theorem length_percentLoop (decoded : percentLoop src left = some dst) : dst.length ≤ left := by
  fun_induction percentLoop src left generalizing dst with
  | case1 =>
    cases decoded
    exact Nat.le_refl 0
  | case2 =>
    cases decoded
    exact Nat.le_refl 1
  | case3 => cases decoded
  | case4 left c1 c2 rest ih ih' =>
    obtain ⟨both, -, decoded⟩ := Option.bind_eq_some_iff.1 decoded
    split at decoded
    · obtain ⟨dst', rest', rfl⟩ := Option.map_eq_some_iff.1 decoded
      have within := ih rest'
      rw [List.length_cons]
      omega
    · exact (ih' decoded).trans (Nat.le_succ _)
  | case5 left c1 ih =>
    obtain ⟨-, -, decoded⟩ := Option.bind_eq_some_iff.1 decoded
    exact (ih decoded).trans (Nat.le_succ _)
  | case6 left ih => exact (ih decoded).trans (Nat.le_succ _)
  | case7 c src left other ih =>
    obtain ⟨dst', rest', rfl⟩ := Option.map_eq_some_iff.1 decoded
    exact Nat.succ_le_succ (ih rest')

/-- It does not run past the `NUL`. -/
theorem percentLoop_past (past : src.length + 1 < left) : percentLoop src left = none := by
  fun_induction percentLoop src left with
  | case1 => omega
  | case2 => simp at past
  | case3 => rfl
  | case4 left c1 c2 rest ih ih' =>
    simp only [List.length_cons] at past ih'
    rw [Option.bind_eq_none_iff]
    intro both _
    split
    · rw [ih (by omega), Option.map_none]
    · exact ih' (by omega)
  | case5 left c1 ih =>
    simp only [List.length_cons] at past ih
    rw [Option.bind_eq_none_iff]
    intro _ _
    exact ih (by omega)
  | case6 left ih => exact ih (Nat.lt_of_succ_lt_succ past)
  | case7 c src left other ih =>
    rw [List.length_cons] at past
    rw [ih (by omega), Option.map_none]

end Escapes

section Characters

variable {s : List UInt8} {i c next len fuel pos : Nat} {b : UInt8} {out : List UInt8}

theorem charAt_eq (there : s[i]? = some b) (low : i < 2 ^ 31) : charAt s i = some b.toNat := by
  have within := (List.getElem?_eq_some_iff.1 there).1
  rw [charAt, if_neg (not_le.2 low), if_neg within.ne, there, Option.map_some]

theorem charAt_le (there : charAt s i = some c) : i ≤ s.length := by
  by_contra past
  rw [charAt, if_neg (show i ≠ s.length by omega), List.getElem?_eq_none (by omega)] at there
  split at there <;> cases there

/-- What `utf8_decode` reads and returns. -/
inductive Decoded (s : List UInt8) (i : Nat) : Nat → Nat → Prop where
  | one (c : Nat) (lead : charAt s i = some c) (ascii : c &&& 128 = 0) : Decoded s i c (i + 1)
  | two (c c1 : Nat) (lead : charAt s i = some c) (kind : c &&& 224 = 192) (more : charAt s (i + 1) = some c1) :
      Decoded s i (((c &&& 31) <<< 6) + (c1 &&& 63)) (i + 2)
  | many (c2 value next : Nat) (more : charAt s (i + 2) = some c2) (far : i + 2 < next) : Decoded s i value next
  | other (c : Nat) (lead : charAt s i = some c) (high : c &&& 128 ≠ 0) : Decoded s i 0x3F (i + 1)

theorem decoded_of_utf8_decode (decoded : utf8_decode s i = some (c, next)) : Decoded s i c next := by
  unfold utf8_decode at decoded
  obtain ⟨lead, first, decoded⟩ := Option.bind_eq_some_iff.1 decoded
  split at decoded
  next ascii =>
    cases decoded
    exact .one _ first ascii
  next high =>
  split at decoded
  next kind =>
    obtain ⟨c1, more, decoded⟩ := Option.bind_eq_some_iff.1 decoded
    cases decoded
    exact .two _ c1 first kind more
  -- the longer ones all read the second byte behind the lead
  split at decoded
  next =>
    obtain ⟨c1, -, decoded⟩ := Option.bind_eq_some_iff.1 decoded
    obtain ⟨c2, more, decoded⟩ := Option.bind_eq_some_iff.1 decoded
    cases decoded
    exact .many c2 _ _ more (by omega)
  split at decoded
  next =>
    obtain ⟨c1, -, decoded⟩ := Option.bind_eq_some_iff.1 decoded
    obtain ⟨c2, more, decoded⟩ := Option.bind_eq_some_iff.1 decoded
    obtain ⟨c3, -, decoded⟩ := Option.bind_eq_some_iff.1 decoded
    cases decoded
    exact .many c2 _ _ more (by omega)
  split at decoded
  next =>
    obtain ⟨c1, -, decoded⟩ := Option.bind_eq_some_iff.1 decoded
    obtain ⟨c2, more, decoded⟩ := Option.bind_eq_some_iff.1 decoded
    obtain ⟨c3, -, decoded⟩ := Option.bind_eq_some_iff.1 decoded
    obtain ⟨c4, -, decoded⟩ := Option.bind_eq_some_iff.1 decoded
    cases decoded
    exact .many c2 _ _ more (by omega)
  split at decoded
  next =>
    obtain ⟨c1, -, decoded⟩ := Option.bind_eq_some_iff.1 decoded
    obtain ⟨c2, more, decoded⟩ := Option.bind_eq_some_iff.1 decoded
    obtain ⟨c3, -, decoded⟩ := Option.bind_eq_some_iff.1 decoded
    obtain ⟨c4, -, decoded⟩ := Option.bind_eq_some_iff.1 decoded
    obtain ⟨c5, -, decoded⟩ := Option.bind_eq_some_iff.1 decoded
    cases decoded
    exact .many c2 _ _ more (by omega)
  cases decoded
  exact .other _ first high

theorem Decoded.lt (decoded : Decoded s i c next) : i < next := by
  cases decoded <;> omega

theorem ascii_bits (b : UInt8) : b.toNat &&& 128 = 0 ↔ b < 0x80 := by
  obtain ⟨⟨b⟩⟩ := b
  revert b
  decide +kernel

/-- A lead of two bytes at the end of the string is read with the `NUL` behind it. -/
theorem lead_alone (b : UInt8) : b.toNat &&& 224 = 192 → UInt8.ofNat (((b.toNat &&& 31) <<< 6) + (0 &&& 63)) ≠ b := by
  obtain ⟨⟨b⟩⟩ := b
  revert b
  decide +kernel

theorem utf8_decode_ascii (there : s[i]? = some b) (low : i < 2 ^ 31) (ascii : b < 0x80) :
    utf8_decode s i = some (b.toNat, i + 1) := by
  rw [utf8_decode, charAt_eq there low]
  simp only [Option.bind_eq_bind, Option.bind_some, if_pos ((ascii_bits b).2 ascii)]

/-- A byte that is not ASCII never comes out: it is replaced, or read together with the byte behind it, which may be the `NUL`. -/
theorem Decoded.of_other (decoded : Decoded s i c next) (there : s[i]? = some b) (low : i < 2 ^ 31) (other : ¬ b < 0x80) :
    (i + 2 ≤ s.length ∧ i + 2 ≤ next) ∨ UInt8.ofNat c ≠ b := by
  have lead := charAt_eq there low
  cases decoded with
  | one c first ascii =>
    obtain rfl := Option.some.inj (lead.symm.trans first)
    exact absurd ((ascii_bits b).1 ascii) other
  | two c c1 first kind more =>
    obtain rfl := Option.some.inj (lead.symm.trans first)
    by_cases last : i + 1 = s.length
    · unfold charAt at more
      split at more
      · cases more
      obtain rfl := Option.some.inj more
      exact .inr (lead_alone b kind)
    · have within := (List.getElem?_eq_some_iff.1 there).1
      exact .inl ⟨by omega, le_rfl⟩
  | many c2 value next more far => exact .inl ⟨charAt_le more, far.le⟩
  | other c first high =>
    right
    rintro rfl
    exact other (by decide)

/-- The second loop writes at most one byte for each that it reads. -/
theorem length_utf8Loop (decoded : utf8Loop s len fuel pos = some out) : out.length ≤ len - pos := by
  induction fuel generalizing pos out with
  | zero =>
    unfold utf8Loop at decoded
    split at decoded
    · cases decoded
    · cases decoded
      exact Nat.zero_le _
  | succ fuel ih =>
    unfold utf8Loop at decoded
    split at decoded
    · obtain ⟨⟨c, next⟩, first, decoded⟩ := Option.bind_eq_some_iff.1 decoded
      obtain ⟨out', rest, rfl⟩ := Option.map_eq_some_iff.1 decoded
      have onward := (decoded_of_utf8_decode first).lt
      have within := ih rest
      rw [List.length_cons]
      omega
    · cases decoded
      exact Nat.zero_le _

/-- **The second loop** gives its string back if and only if it is ASCII. By induction on the rounds. -/
theorem utf8Loop_iff (short : s.length < 2 ^ 31) (enough : s.length ≤ fuel + pos) :
    utf8Loop s s.length fuel pos = some (s.drop pos) ↔ ∀ b ∈ s.drop pos, b < 0x80 := by
  induction fuel generalizing pos with
  | zero =>
    have past : s.drop pos = [] := List.drop_eq_nil_of_le (by omega)
    simp [utf8Loop, past, show ¬ pos < s.length by omega]
  | succ fuel ih =>
    unfold utf8Loop
    split
    next within =>
      obtain ⟨b, there⟩ : ∃ b, s[pos]? = some b := ⟨_, List.getElem?_eq_getElem within⟩
      have here : s.drop pos = b :: s.drop (pos + 1) := by
        rw [List.drop_eq_getElem_cons within]
        rw [List.getElem?_eq_getElem within] at there
        rw [Option.some.inj there]
      have low : pos < 2 ^ 31 := within.trans short
      rw [here, List.forall_mem_cons]
      by_cases ascii : b < 0x80
      · rw [utf8_decode_ascii there low ascii, and_iff_right ascii, ← ih (by omega)]
        simp
      · refine iff_of_false (fun decoded => ?_) fun all => ascii all.1
        obtain ⟨⟨c, next⟩, first, decoded⟩ := Option.bind_eq_some_iff.1 decoded
        obtain ⟨out, rest, same⟩ := Option.map_eq_some_iff.1 decoded
        obtain ⟨value, rfl⟩ := List.cons.inj same
        have length := length_utf8Loop rest
        rw [List.length_drop] at length
        rcases (decoded_of_utf8_decode first).of_other there low ascii with ⟨more, far⟩ | differs
        · omega
        · exact differs value
    next past =>
      have past : s.drop pos = [] := List.drop_eq_nil_of_le (not_lt.1 past)
      simp [past]

end Characters

/-- The counter of the first loop: a length that is no `int` becomes negative and then very large, or it wraps around. -/
theorem srclen_cases (size : Nat) :
    (size % 2 ^ 32 < 2 ^ 31 ∧ srclen size = size % 2 ^ 32) ∨ 2 ^ 64 - 2 ^ 32 ≤ srclen size := by
  rw [srclen, toInt32, Int.bmod_def]
  split <;> omega

theorem dstlen_eq (size : Nat) : dstlen size = size % 2 ^ 32 := by
  rw [dstlen, toInt32, Int.bmod_def]
  split <;> omega

theorem url_decode_short {s : List UInt8} (short : (url_encode s).length < 2 ^ 31) :
    url_decode (url_encode s) = some s ↔ ∀ b ∈ s, b < 0x80 := by
  have lengths := length_url_encode s
  have all : srclen (url_encode s).length = (url_encode s).length := by
    rcases srclen_cases (url_encode s).length with ⟨-, wraps⟩ | huge
    · rw [wraps]
      omega
    · rw [srclen, toInt32_eq (by omega) (by omega)]
      omega
  have all' : dstlen s.length = s.length := by
    rw [dstlen_eq]
    omega
  rw [url_decode, all, percentLoop_encode, Option.bind_eq_bind, Option.bind_some, all']
  have loop : utf8Loop s s.length s.length 0 = some (s.drop 0) ↔ ∀ b ∈ s.drop 0, b < 0x80 :=
    utf8Loop_iff (lt_of_le_of_lt lengths.1 short) (Nat.le_refl _)
  exact loop

theorem url_decode_long {s : List UInt8} (long : 2 ^ 31 ≤ (url_encode s).length) : url_decode (url_encode s) ≠ some s := by
  intro decoded
  have lengths := length_url_encode s
  rw [url_decode, Option.bind_eq_bind, Option.bind_eq_some_iff] at decoded
  obtain ⟨dst, first, second⟩ := decoded
  have out := length_utf8Loop second
  have within := length_percentLoop first
  rw [dstlen_eq] at out
  rcases srclen_cases (url_encode s).length with ⟨low, wraps⟩ | huge
  · -- a part of the string is decoded, and it is too short
    rw [wraps] at within
    omega
  · -- the loop runs past the string
    rw [percentLoop_past (by omega)] at first
    cases first

/-- **Decoding gives back what was encoded** if and only if it is ASCII, and encoded not so long that its length is no `int`. -/
theorem url_decode_encode_iff (s : List UInt8) :
    url_decode (url_encode s) = some s ↔ (∀ b ∈ s, b < 0x80) ∧ (url_encode s).length < 2 ^ 31 := by
  by_cases short : (url_encode s).length < 2 ^ 31
  · rw [url_decode_short short, and_iff_left short]
  · exact iff_of_false (url_decode_long (not_lt.1 short)) fun both => short both.2

/-- A character of two bytes comes back as one. -/
theorem url_decode_accent :
    url_decode (url_encode [0xC3, 0xA9]) = some [0xE9] ∧ url_decode (url_encode [0xC3, 0xA9]) ≠ some [0xC3, 0xA9] := by
  decide

end GameServer.Text

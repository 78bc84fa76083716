import GameServer.Text.KeywordFilter
import GameServer.Text.Utf8

/-!
# Replacing a keyword

`HasFilterWordAndReplace` searches the units of a text and replaces bytes of it. `UnicodePosToUTF8Pos` turns the place that was found
into bytes by counting characters, so that it is right as long as the units before the end of the keyword are as many as the
characters, and only then (`replace_iff`).

What the system decodes is `decode`, and `Gb2312ToUTF8` is asked for texts that are no UTF-8 or all ASCII.
-/

namespace GameServer.Text

open GameServer.Lib

section Functions

variable (decode : List UInt8 → List keytype) (Gb2312ToUTF8 : List UInt8 → List UInt8)

/-- `isFileterWord` of a `std::string`. -/
def Table.isFileterWord (table : Table) (word : List UInt8) : Bool × Table :=
  table.hasKeyWord (UTF8ToUnicode decode (if IsTextUTF8 word then word else Gb2312ToUTF8 (c_str word)))

/-- The length of a character by its first byte, as `UnicodePosToUTF8Pos` takes it. -/
def seqLen (byte : UInt8) : Nat :=
  if byte ≥ 0xFC then 6
  else if byte ≥ 0xF8 then 5
  else if byte ≥ 0xF0 then 4
  else if byte ≥ 0xE0 then 3
  else if byte ≥ 0xC0 then 2
  else 1

/-- The loop of `UnicodePosToUTF8Pos`, over what is left from `i` on and with a bound on its passes; `pos` is `utfStart` and
`utfLen`. -/
def posLoop (uniStart uniLen : Int) : Nat → List UInt8 → (i : Nat) → (count : Int) → (pos : Int × Int) → Int × Int
  | 0, _, _, _, pos => pos
  | _ + 1, [], _, _, pos => pos
  | k + 1, byte :: rest, i, count, pos =>
    let len := seqLen byte
    let count := count + 1
    let utfStart : Int := if count = uniStart then i else pos.1
    let i := i + len
    if count = uniStart + uniLen - 1 then (utfStart, i - utfStart)
    else posLoop uniStart uniLen k ((byte :: rest).drop len) i count (utfStart, pos.2)

def UnicodePosToUTF8Pos (uniStart uniLen : Int) (utfStr : List UInt8) (pos : Int × Int) : Int × Int :=
  posLoop uniStart uniLen utfStr.length utfStr 0 (-1) pos

/-- `std::string::replace`, whose position and length are not signed. It throws past the end of the string. -/
def replace (str : List UInt8) (pos len : Int) (other : List UInt8) : Option (List UInt8) :=
  if 0 ≤ pos ∧ pos ≤ str.length then
    some (str.take pos.toNat ++ other ++ if len < 0 then [] else str.drop (pos.toNat + len.toNat))
  else none

/-- `HasFilterWordAndReplace`, with what becomes of the string. -/
def Table.HasFilterWordAndReplace (table : Table) (str other : List UInt8) : Option ((Bool × List UInt8) × Table) :=
  let (found, table) := table.isFileterWord decode Gb2312ToUTF8 str
  if found then
    let (key, table) := table.getKeyPos
    let (nStart, nlen) := UnicodePosToUTF8Pos key.m_nStart key.m_nLen str (key.m_nStart, key.m_nLen)
    (replace str nStart nlen other).map fun str => ((true, str), table)
  else some ((false, str), table)

end Functions

section Positions

variable {U L k i m : Nat} {c : Char} {cs a b d x : List Char} {pos : Int × Int} {s l : Int}

theorem seqLen_lead {lead : UInt8} {n : Nat} (lead' : Lead c lead n) : seqLen lead = n + 1 := by
  simp only [seqLen, ge_iff_le, UInt8.le_iff_toNat_le, UInt8.reduceToNat]
  cases lead' with
  | one _ most => split_ifs <;> omega
  | two _ _ least most => split_ifs <;> omega
  | three _ _ least most => split_ifs <;> omega
  | four _ _ least most => split_ifs <;> omega

/-- One character; `m` are before it. -/
theorem posLoop_char : posLoop U L (k + 1) (utf8 (c :: cs)) i ((m : Int) - 1) pos =
    let utfStart : Int := if m = U then i else pos.1
    let i := i + (String.utf8EncodeChar c).length
    if m + 1 = U + L then (utfStart, i - utfStart) else posLoop U L k (utf8 cs) i (((m + 1 : Nat) : Int) - 1) (utfStart, pos.2) := by
  obtain ⟨lead, tail, is, lead', -⟩ := utf8EncodeChar_eq c
  have rest : (lead :: (tail ++ utf8 cs)).drop (seqLen lead) = utf8 cs := by
    rw [seqLen_lead lead', List.drop_succ_cons, List.drop_left]
  have count : (m : Int) - 1 + 1 = ((m + 1 : Nat) : Int) - 1 := by omega
  have start : ((m + 1 : Nat) : Int) - 1 = U ↔ m = U := by omega
  have last : ((m + 1 : Nat) : Int) - 1 = U + L - 1 ↔ m + 1 = U + L := by omega
  rw [utf8_cons, is, List.cons_append, posLoop, rest]
  simp only [count, start, last, seqLen_lead lead', List.length_cons]

/-- There is a pass for each character. -/
theorem exists_pass (enough : (utf8 (c :: cs)).length ≤ k) : ∃ j, k = j + 1 ∧ (utf8 cs).length ≤ j := by
  obtain ⟨lead, tail, is, -⟩ := utf8EncodeChar_eq c
  rw [utf8_cons, List.length_append, is, List.length_cons] at enough
  exact ⟨k - 1, by omega, by omega⟩

/-- The characters before the start are passed. -/
theorem posLoop_before (few : m + a.length ≤ U) (some' : 0 < L) (enough : (utf8 (a ++ x)).length ≤ k) :
    ∃ k', (utf8 x).length ≤ k' ∧ posLoop U L k (utf8 (a ++ x)) i ((m : Int) - 1) pos =
      posLoop U L k' (utf8 x) (i + (utf8 a).length) (((m + a.length : Nat) : Int) - 1) pos := by
  induction a generalizing k i m with
  | nil => exact ⟨k, enough, rfl⟩
  | cons c a ih =>
    obtain ⟨k, rfl, rest⟩ := exists_pass enough
    rw [List.length_cons] at few
    obtain ⟨k', rest', run⟩ := ih (i := i + (String.utf8EncodeChar c).length) (m := m + 1) (by omega) rest
    refine ⟨k', rest', ?_⟩
    have notStart : m ≠ U := by omega
    have notLast : m + 1 ≠ U + L := by omega
    rw [List.cons_append, posLoop_char]
    simp only [if_neg notStart, if_neg notLast]
    rw [run, utf8_cons, List.length_append, List.length_cons, Nat.add_assoc i,
      Nat.add_assoc m, Nat.add_comm 1]

/-- The characters from the second one on are passed up to the last one. -/
theorem posLoop_inside (late : U < m) (last : m + b.length = U + L) (some' : b ≠ []) (enough : (utf8 (b ++ d)).length ≤ k) :
    posLoop U L k (utf8 (b ++ d)) i ((m : Int) - 1) (s, l) = (s, ((i + (utf8 b).length : Nat) : Int) - s) := by
  induction b generalizing k i m with
  | nil => exact absurd rfl some'
  | cons c b ih =>
    obtain ⟨k, rfl, rest⟩ := exists_pass enough
    rw [List.length_cons] at last
    rw [List.cons_append, posLoop_char]
    have notStart : m ≠ U := by omega
    simp only [if_neg notStart]
    cases b with
    | nil =>
      rw [List.length_nil] at last
      rw [if_pos (by omega)]
      simp
    | cons e b =>
      rw [List.length_cons] at last
      rw [if_neg (by omega), ih (by omega) (by rw [List.length_cons]; omega) (List.cons_ne_nil e b) rest]
      have length' : (utf8 (c :: e :: b)).length = (String.utf8EncodeChar c).length + (utf8 (e :: b)).length := by
        rw [utf8_cons, List.length_append]
      rw [length', Nat.add_assoc i]

/-- Without the last one nothing more is written. -/
theorem posLoop_short (late : U < m) (few : m + x.length < U + L) :
    posLoop U L k (utf8 x) i ((m : Int) - 1) (s, l) = (s, l) := by
  induction x generalizing k i m with
  | nil => cases k <;> rfl
  | cons c x ih =>
    cases k with
    | zero => rfl
    | succ k =>
      rw [List.length_cons] at few
      have notStart : m ≠ U := by omega
      have notLast : m + 1 ≠ U + L := by omega
      rw [posLoop_char]
      simp only [if_neg notStart, if_neg notLast]
      exact ih (by omega) (by omega)

/-- The characters before the start are passed, from the beginning on. -/
theorem unicodePos_before (x : List Char) (pos : Int × Int) (few : a.length ≤ U) (some' : 0 < L) :
    ∃ k, (utf8 x).length ≤ k ∧
      UnicodePosToUTF8Pos U L (utf8 (a ++ x)) pos = posLoop U L k (utf8 x) (utf8 a).length ((a.length : Int) - 1) pos := by
  have few' : 0 + a.length ≤ U := by omega
  have begin : ((0 : Nat) : Int) - 1 = -1 := rfl
  obtain ⟨k, enough, run⟩ := @posLoop_before U L _ 0 0 a x pos few' some' (Nat.le_refl (utf8 (a ++ x)).length)
  rw [begin, Nat.zero_add, Nat.zero_add] at run
  exact ⟨k, enough, run⟩

/-- So many characters, as many as there are: their bytes. -/
theorem unicodePos_whole (some' : b ≠ []) :
    UnicodePosToUTF8Pos a.length b.length (utf8 (a ++ b ++ d)) pos =
      (((utf8 a).length : Int), ((utf8 b).length : Int)) := by
  obtain ⟨c, b, rfl⟩ := List.exists_cons_of_ne_nil some'
  obtain ⟨k, enough, run⟩ := unicodePos_before (c :: b ++ d) pos (Nat.le_refl a.length) (Nat.succ_pos b.length)
  obtain ⟨k, rfl, rest⟩ := exists_pass enough
  rw [List.append_assoc, List.length_cons, run, List.cons_append, posLoop_char]
  simp only [if_true]
  cases b with
  | nil =>
    have last : a.length + 1 = a.length + ([] : List Char).length.succ := rfl
    rw [if_pos last, utf8_cons, utf8_nil, List.append_nil]
    congr 1
    omega
  | cons e b =>
    have notLast : a.length + 1 ≠ a.length + (e :: b).length.succ := by
      rw [List.length_cons]
      omega
    have length : a.length + 1 + (e :: b).length = a.length + (e :: b).length.succ := by omega
    rw [if_neg notLast, posLoop_inside (Nat.lt_succ_self _) length (List.cons_ne_nil e b) rest]
    rw [utf8_cons (c := c), List.length_append]
    congr 1
    omega

/-- So many characters, fewer than there should be: the length stays. -/
theorem unicodePos_short (some' : x ≠ []) (few : x.length < L) :
    UnicodePosToUTF8Pos a.length L (utf8 (a ++ x)) pos = (((utf8 a).length : Int), pos.2) := by
  obtain ⟨c, x, rfl⟩ := List.exists_cons_of_ne_nil some'
  obtain ⟨k, enough, run⟩ := unicodePos_before (c :: x) pos (Nat.le_refl a.length) (Nat.zero_lt_of_lt few)
  obtain ⟨k, rfl, -⟩ := exists_pass enough
  rw [List.length_cons] at few
  rw [run, posLoop_char]
  simp only [if_true]
  rw [if_neg (by omega)]
  exact posLoop_short (by omega) (by omega)

/-- Too few characters for the start: nothing changes. -/
theorem unicodePos_none (few : cs.length ≤ U) (some' : 0 < L) : UnicodePosToUTF8Pos U L (utf8 cs) pos = pos := by
  obtain ⟨k, -, run⟩ := unicodePos_before [] pos few some'
  rw [List.append_nil] at run
  rw [run]
  cases k <;> rfl

end Positions

section Loaded

variable {decode : List UInt8 → List keytype} {table : Table} {w : List keytype}

/-- The words of a table are texts. -/
def Texts (root : DFANode) : Prop := ∀ w, root.Word w → ∃ ks, w = utf16 ks

theorem Texts.loadLine (texts : Texts table.root) (whole : ∀ bytes, ∃ ks, decode bytes = utf16 ks) (line : List UInt8) :
    Texts (table.loadLine decode line).root := by
  rw [Table.loadLine]
  have found := @Table.hasKeyWord_iff table (UTF8ToUnicode decode (c_str line))
  simp only
  split_ifs with known
  · exact texts
  · intro w word
    by_cases empty : UTF8ToUnicode decode (c_str line) = []
    · rw [empty] at word
      exact texts w word
    · have fresh : ∀ v, v <+: UTF8ToUnicode decode (c_str line) → ¬ table.root.Word v :=
        fun v start word => known (found.2 ⟨v, start.isInfix, word⟩)
      rcases (word_addNode empty fresh).1 word with rfl | ⟨word, -⟩
      · rw [UTF8ToUnicode]
        split_ifs
        · exact ⟨[], rfl⟩
        · exact whole _
      · exact texts w word

theorem Texts.loadLoop {turns : Nat} {file : ifstream} (texts : Texts table.root)
    (whole : ∀ bytes, ∃ ks, decode bytes = utf16 ks) : Texts (table.loadLoop decode turns file).root := by
  induction turns generalizing table file with
  | zero => exact texts
  | succ turns ih =>
    rw [Table.loadLoop]
    split_ifs with more
    · simp only
      split_ifs
      · exact ih texts
      · exact ih (texts.loadLine whole _)
    · exact texts

/-- A table that was loaded has texts as its words. -/
theorem texts_loadFile (whole : ∀ bytes, ∃ ks, decode bytes = utf16 ks) (content : List UInt8) :
    Texts (Table.init.loadFile decode content).root :=
  Texts.loadLoop (fun _ word => absurd word Trie.not_word_leaf) whole

end Loaded

section Replace

variable {decode : List UInt8 → List keytype} {Gb2312ToUTF8 : List UInt8 → List UInt8} {table : Table}
  {cs pre key post : List Char}

/-- A keyword stands in the text, and none begins before it. -/
structure First (root : DFANode) (pre key post : List Char) : Prop where
  word : root.Word (utf16 key)
  first : ∀ pre' key' post', pre ++ key ++ post = pre' ++ key' ++ post' → root.Word (utf16 key') → pre.length ≤ pre'.length

/-- The search finds the units of the first keyword. -/
theorem First.found (first : First table.root pre key post) (texts : Texts table.root) :
    (table.hasKeyWord (utf16 (pre ++ key ++ post))).1 = true ∧
      (table.hasKeyWord (utf16 (pre ++ key ++ post))).2.getKeyPos.1 = ⟨(utf16 pre).length, (utf16 key).length⟩ := by
  have units : utf16 (pre ++ key ++ post) = utf16 pre ++ (utf16 key ++ utf16 post) := by
    rw [utf16_append, utf16_append, List.append_assoc]
  have here : utf16 key <+: (utf16 (pre ++ key ++ post)).drop (utf16 pre).length := by
    rw [units, List.drop_left]
    exact List.prefix_append _ _
  have found : (table.hasKeyWord (utf16 (pre ++ key ++ post))).1 = true := by
    rw [Table.hasKeyWord_iff]
    exact ⟨utf16 key, ⟨utf16 pre, utf16 post, by rw [units, List.append_assoc]⟩, first.word⟩
  refine ⟨found, ?_⟩
  obtain ⟨i, w, start, word, same, earlier⟩ := pos_text rfl found
  have left : (table.hasKeyWord (utf16 (pre ++ key ++ post))).2.getKeyPos.1 = ⟨0 + i, w.length⟩ := same
  obtain ⟨ks, rfl⟩ := texts w word
  have some' : ks ≠ [] := by
    rintro rfl
    exact Trie.not_word_nil word
  obtain ⟨p, q, is, length, r, rfl⟩ := utf16_occurs some' start
  have notBefore : pre.length ≤ p.length := first.first p ks r (by rw [is, List.append_assoc]) word
  have notAfter : i ≤ (utf16 pre).length := by
    by_contra less
    exact earlier _ (Nat.lt_of_not_le less) _ here first.word
  rw [List.append_assoc] at is
  have place : p = pre ∧ key ++ post = ks ++ r := by
    rcases List.append_eq_append_iff.1 is with ⟨e, rfl, rest⟩ | ⟨e, rfl, rest⟩
    · rw [utf16_append, List.length_append] at length
      have short := @length_le_utf16 e
      obtain rfl : e = [] := List.length_eq_zero_iff.1 (by omega)
      exact ⟨List.append_nil pre, rest⟩
    · rw [List.length_append] at notBefore
      obtain rfl : e = [] := List.length_eq_zero_iff.1 (by omega)
      exact ⟨(List.append_nil p).symm, rest.symm⟩
  obtain ⟨rfl, rest⟩ := place
  have one : utf16 key <+: utf16 (key ++ post) := by
    rw [utf16_append]
    exact List.prefix_append _ _
  have two : utf16 ks <+: utf16 (key ++ post) := by
    rw [rest, utf16_append]
    exact List.prefix_append _ _
  have same : utf16 ks = utf16 key := by
    rcases List.prefix_or_prefix_of_prefix two one with shorter | longer
    · exact Trie.word_eq_of_prefix word first.word shorter
    · exact (Trie.word_eq_of_prefix first.word word longer).symm
  rw [left, Nat.zero_add, same, length]

/-- The bytes that are replaced for a keyword at these units. -/
def keyRange (pre key post : List Char) : Int × Int :=
  UnicodePosToUTF8Pos (utf16 pre).length (utf16 key).length (utf8 (pre ++ key ++ post)) ((utf16 pre).length, (utf16 key).length)

/-- What becomes of the string: the range that `UnicodePosToUTF8Pos` gives is replaced. -/
theorem First.replaced (first : First table.root pre key post) (texts : Texts table.root)
    (reads : UTF8ToUnicode decode (utf8 (pre ++ key ++ post)) = utf16 (pre ++ key ++ post))
    (high : ∃ c ∈ pre ++ key ++ post, 0x80 ≤ c.toNat) (other : List UInt8) :
    (table.HasFilterWordAndReplace decode Gb2312ToUTF8 (utf8 (pre ++ key ++ post)) other).map Prod.fst =
      (replace (utf8 (pre ++ key ++ post)) (keyRange pre key post).1 (keyRange pre key post).2 other).map
        fun str => (true, str) := by
  obtain ⟨found, pos⟩ := first.found texts
  have run : table.isFileterWord decode Gb2312ToUTF8 (utf8 (pre ++ key ++ post)) =
      table.hasKeyWord (utf16 (pre ++ key ++ post)) := by
    rw [Table.isFileterWord, if_pos (isTextUTF8_utf8.2 high), reads]
  rw [Table.HasFilterWordAndReplace, run]
  simp only [found, if_true, pos, Option.map_map, Function.comp_def, keyRange]

theorem replace_whole (before here after other : List UInt8) :
    replace (before ++ here ++ after) before.length here.length other = some (before ++ other ++ after) := by
  have inside : (0 : Int) ≤ before.length ∧ (before.length : Int) ≤ (before ++ here ++ after).length := by
    simp only [List.length_append]
    omega
  have positive : ¬ (here.length : Int) < 0 := by omega
  rw [replace, if_pos inside, if_neg positive, Int.toNat_natCast, Int.toNat_natCast, List.append_assoc before here, List.take_left,
    ← List.drop_drop, List.drop_left, List.drop_left]

/-- A byte that no text has shows what was taken away. -/
theorem replace_marked {str : List UInt8} {s n : Nat}
    (marked : replace str s n [0xFF] = some (utf8 pre ++ [0xFF] ++ utf8 post)) :
    str.take s = utf8 pre ∧ s ≤ str.length ∧ str.drop (s + n) = utf8 post := by
  have absent : ∀ cs, (0xFF : UInt8) ∉ utf8 cs := fun cs mem => absurd (lt_of_mem_utf8 mem) (by decide)
  have positive : ¬ (n : Int) < 0 := by omega
  rw [replace] at marked
  split_ifs at marked with inside
  have same := Option.some.inj marked
  rw [Int.toNat_natCast, Int.toNat_natCast, List.append_assoc, List.append_assoc, List.singleton_append, List.singleton_append,
    eq_comm, List.append_cons_inj_of_notMem (absent pre) (absent post)] at same
  exact ⟨same.1.symm, by omega, same.2.2.symm⟩

/-- A text that has more units than characters has more bytes than units. -/
theorem lt_utf8_of_lt_utf16 (more : cs.length < (utf16 cs).length) : (utf16 cs).length < (utf8 cs).length := by
  apply length_utf16_lt
  by_contra none'
  have basic : ∀ c ∈ cs, Basic c := by
    intro c mem
    by_contra outside
    exact none' ⟨c, mem, outside⟩
  rw [length_utf16_eq_iff.2 basic] at more
  exact Nat.lt_irrefl _ more

/-- When the right bytes are taken away, there are as many units as characters. -/
theorem basic_of_marked (some' : key ≠ [])
    (marked : replace (utf8 (pre ++ key ++ post)) (keyRange pre key post).1 (keyRange pre key post).2 [0xFF] =
      some (utf8 pre ++ [0xFF] ++ utf8 post)) : ∀ c ∈ pre ++ key, Basic c := by
  rw [keyRange] at marked
  have keyUnits := @length_le_utf16 key
  have preUnits := @length_le_utf16 pre
  have keySome := List.length_pos_iff.2 some'
  generalize is : pre ++ key ++ post = cs at marked
  have length : cs.length = pre.length + key.length + post.length := by
    rw [← is, List.length_append, List.length_append]
  rw [List.append_assoc] at is
  by_cases far : cs.length ≤ (utf16 pre).length
  · -- there is no such character, and the units are taken for bytes
    rw [unicodePos_none far (by omega)] at marked
    obtain ⟨taken, inside, -⟩ := replace_marked marked
    have lengths := congrArg List.length taken
    rw [List.length_take_of_le inside] at lengths
    have bytes : (utf16 pre).length < (utf8 pre).length := lt_utf8_of_lt_utf16 (by omega)
    omega
  obtain ⟨a, x, rfl, start⟩ : ∃ a x, cs = a ++ x ∧ a.length = (utf16 pre).length :=
    ⟨cs.take (utf16 pre).length, cs.drop (utf16 pre).length, (List.take_append_drop _ _).symm,
      List.length_take_of_le (by omega)⟩
  rw [List.length_append] at length far
  by_cases short : x.length < (utf16 key).length
  · -- the text ends before the last one, and the number of units is taken for that of bytes
    rw [← start, unicodePos_short (List.length_pos_iff.1 (by omega)) short] at marked
    obtain ⟨taken, -, rest⟩ := replace_marked marked
    rw [utf8_append, List.take_left] at taken
    obtain ⟨rfl, rfl⟩ := append_inj_of_utf8 is.symm (congrArg List.length taken)
    have bytes : (utf16 key).length < (utf8 key).length := lt_utf8_of_lt_utf16 (by rw [List.length_append] at short; omega)
    have lengths := congrArg List.length rest
    rw [utf8_append, ← List.drop_drop, List.drop_left, List.length_drop, utf8_append, List.length_append] at lengths
    omega
  · obtain ⟨b, d, rfl, last⟩ : ∃ b d, x = b ++ d ∧ b.length = (utf16 key).length :=
      ⟨x.take (utf16 key).length, x.drop (utf16 key).length, (List.take_append_drop _ _).symm,
        List.length_take_of_le (by omega)⟩
    have someB : b ≠ [] := List.length_pos_iff.1 (by omega)
    rw [← start, ← last, ← List.append_assoc, unicodePos_whole someB, List.append_assoc] at marked
    obtain ⟨taken, -, rest⟩ := replace_marked marked
    rw [utf8_append, List.take_left] at taken
    obtain ⟨rfl, same⟩ := append_inj_of_utf8 is.symm (congrArg List.length taken)
    rw [utf8_append, ← List.drop_drop, List.drop_left, utf8_append, List.drop_left] at rest
    have bytes : (utf8 b).length = (utf8 key).length := by
      have lengths := congrArg (fun cs => (utf8 cs).length) same
      have ends := congrArg List.length rest
      simp only [utf8_append, List.length_append] at lengths
      omega
    obtain ⟨rfl, -⟩ := append_inj_of_utf8 same bytes
    intro c mem
    rcases List.mem_append.1 mem with mem | mem
    · exact length_utf16_eq_iff.1 start.symm c mem
    · exact length_utf16_eq_iff.1 last.symm c mem

/-- **Replacing.** In a text with a keyword and a character that is not ASCII, exactly the bytes of the first keyword are replaced,
whatever by, if and only if all characters before and in the keyword are in the basic plane. -/
theorem replace_iff (decode : List UInt8 → List keytype) (Gb2312ToUTF8 : List UInt8 → List UInt8) (content : List UInt8)
    (left : KeyPos) (pre key post : List Char) (whole : ∀ bytes, ∃ ks, decode bytes = utf16 ks)
    (reads : UTF8ToUnicode decode (utf8 (pre ++ key ++ post)) = utf16 (pre ++ key ++ post))
    (high : ∃ c ∈ pre ++ key ++ post, 0x80 ≤ c.toNat) (first : First (Table.init.loadFile decode content).root pre key post) :
    (∀ other, (Table.HasFilterWordAndReplace decode Gb2312ToUTF8 ⟨(Table.init.loadFile decode content).root, left⟩
        (utf8 (pre ++ key ++ post)) other).map Prod.fst = some (true, utf8 pre ++ other ++ utf8 post)) ↔
      ∀ c ∈ pre ++ key, Basic c := by
  have texts := texts_loadFile whole content
  generalize (Table.init.loadFile decode content).root = root at first texts
  have first' : First (Table.mk root left).root pre key post := first
  have some' : key ≠ [] := by
    rintro rfl
    exact Trie.not_word_nil first.word
  simp only [first'.replaced texts reads high]
  constructor
  · intro all
    obtain ⟨str, marked, same⟩ := Option.map_eq_some_iff.1 (all [0xFF])
    rw [(Prod.mk.inj same).2] at marked
    exact basic_of_marked some' marked
  · intro basic other
    have lengths : (utf16 pre).length = pre.length ∧ (utf16 key).length = key.length :=
      ⟨length_utf16_eq_iff.2 fun c mem => basic c (List.mem_append_left key mem),
        length_utf16_eq_iff.2 fun c mem => basic c (List.mem_append_right pre mem)⟩
    rw [keyRange, lengths.1, lengths.2, unicodePos_whole some']
    simp only [utf8_append]
    rw [replace_whole]
    rfl

/-- Decodes these texts. -/
def decodeTexts (texts : List (List Char)) (bytes : List UInt8) : List keytype :=
  ((texts.find? fun cs => utf8 cs = bytes).map utf16).getD []

theorem decodeTexts_whole (texts : List (List Char)) (bytes : List UInt8) : ∃ ks, decodeTexts texts bytes = utf16 ks := by
  rw [decodeTexts]
  cases texts.find? fun cs => utf8 cs = bytes with
  | none => exact ⟨[], rfl⟩
  | some ks => exact ⟨ks, rfl⟩

def accent : Char := Char.ofNat 0xE9

/-- A character of three bytes. -/
def wide : Char := Char.ofNat 0x4F60

/-- A character outside the basic plane. -/
def grin : Char := Char.ofNat 0x1F600

theorem word_accent : Trie.Word (.node [(0xE9, .leaf)] : DFANode) w ↔ w = utf16 [accent] := by
  have units : utf16 [accent] = [0xE9] := rfl
  rw [units]
  cases w with
  | nil => simp [Trie.not_word_nil]
  | cons k ks =>
    by_cases same : k = 0xE9
    · subst same
      rw [Trie.word_cons (c := .leaf) rfl]
      simp [Trie.not_word_leaf]
    · simp [Trie.Word, Trie.get, Trie.children, List.lookup_cons, beq_false_of_ne same, same]

/-- The accent is the only keyword. -/
theorem first_accent (new : accent ∉ pre) : First (.node [(0xE9, .leaf)]) pre [accent] post := by
  refine ⟨word_accent.2 rfl, ?_⟩
  intro pre' key' post' same word
  have start : utf16 key' <+: utf16 [accent] := by rw [word_accent.1 word]
  have start' : utf16 [accent] <+: utf16 key' := by rw [word_accent.1 word]
  obtain rfl := (utf16_begins start).eq_of_length_le (utf16_begins start').length_le
  by_contra less
  rw [List.append_assoc, List.append_assoc] at same
  rcases List.append_eq_append_iff.1 same with ⟨e, rfl, -⟩ | ⟨e, rfl, rest⟩
  · exact less (by simp)
  · cases e with
    | nil => exact less (by simp)
    | cons c e =>
      apply new
      rw [(List.cons.inj rest).1]
      simp

/-- Three bytes before the keyword, and two units after it. -/
theorem replace_iff_accent : (Table.HasFilterWordAndReplace (decodeTexts [[accent], [wide, accent, grin]]) id
    ⟨(Table.init.loadFile (decodeTexts [[accent], [wide, accent, grin]]) (utf8 [accent])).root, 0, 0⟩
    (utf8 [wide, accent, grin]) [42]).map Prod.fst = some (true, utf8 [wide] ++ [42] ++ utf8 [grin]) :=
  (replace_iff (decodeTexts [[accent], [wide, accent, grin]]) id (utf8 [accent]) ⟨0, 0⟩ [wide] [accent] [grin]
    (decodeTexts_whole _) (by decide +kernel) ⟨accent, by simp, by decide⟩ (first_accent (by decide))).2
    (List.forall_mem_cons.2 ⟨by decide, List.forall_mem_singleton.2 (by decide)⟩) [42]

/-- Two units before the keyword are one character: the middle of its four bytes is replaced. -/
theorem replace_grin :
    First (Table.init.loadFile (decodeTexts [[accent], [grin, accent]]) (utf8 [accent])).root [grin] [accent] [] ∧
      (Table.HasFilterWordAndReplace (decodeTexts [[accent], [grin, accent]]) id
        (Table.init.loadFile (decodeTexts [[accent], [grin, accent]]) (utf8 [accent])) (utf8 [grin, accent]) [42]).map Prod.fst =
          some (true, [0xF0, 0x9F, 42, 0x80, 0xC3, 0xA9]) ∧
      utf8 [grin] ++ [42] ++ utf8 [] = [0xF0, 0x9F, 0x98, 0x80, 42] := by
  refine ⟨first_accent (by decide), by decide +kernel, by decide⟩

end Replace

end GameServer.Text

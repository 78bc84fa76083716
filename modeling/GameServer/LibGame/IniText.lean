import GameServer.LibGame.IniFile

/-!
# Saving files of settings and loading them again

A file is writable if its names and values fit on lines that are read as what they are. Every text is loaded as such a file, the calls
with such names and values keep it so, and what is saved of it is loaded as the same file (`load_save`).
-/

namespace GameServer.LibGame.Ini

open GameServer.Lib

/-- `_CRLFA`, with or without the carriage return. -/
def crlf (windows : Bool) : List UInt8 := if windows then [13, 10] else [10]

def sectionLine (s : IniSection) : List UInt8 := 91 :: (s.m_sSectionName ++ [93])

def keyLine (k : IniKey) : List UInt8 := k.m_sKeyName ++ 61 :: k.m_sValue

def IniSection.lines (s : IniSection) : List (List UInt8) := sectionLine s :: s.m_keys.items.map keyLine

/-- `Save`. -/
def IniFile.save (f : IniFile) (windows : Bool) : List UInt8 :=
  f.m_sections.items.flatMap fun s => s.lines.flatMap fun line => line ++ crlf windows

structure IniKey.Writable (k : IniKey) : Prop where
  some_ : k.m_sKeyName ≠ []
  trimmed : trim k.m_sKeyName = k.m_sKeyName
  noSign : 61 ∉ k.m_sKeyName
  noLine : 10 ∉ k.m_sKeyName ∧ 10 ∉ k.m_sValue
  noReturn : k.m_sValue.getLast? ≠ some 13
  /-- The line is not that of a section. -/
  noBracket : (folded k.m_sKeyName).head? = some 91 → (rTrim white k.m_sValue).getLast? ≠ some 93

structure IniSection.Writable (s : IniSection) : Prop where
  trimmed : trim s.m_sSectionName = s.m_sSectionName
  noLine : 10 ∉ s.m_sSectionName
  keys : ∀ k ∈ s.m_keys.items, k.Writable

def IniFile.Writable (f : IniFile) : Prop := ∀ s ∈ f.m_sections.items, s.Writable

/-- A name for a key that is on no line of a section. -/
def KeyName (name : Name) : Prop := trim name ≠ [] ∧ 61 ∉ name ∧ 10 ∉ name ∧ (ident name).head? ≠ some 91

/-- What a call adds to the file can be written. -/
def Call.Writable : Call → Prop
  | .addSection s => 10 ∉ s
  | .setKeyValue s k v => 10 ∉ s ∧ KeyName k ∧ 10 ∉ v ∧ v.getLast? ≠ some 13
  | .addKey _ k => KeyName k
  | .renameSection _ s' => 10 ∉ s'
  | .renameKey _ _ k' => KeyName k'
  | _ => True

section Trimming

variable {p : UInt8 → Bool} {a v str name name' : List UInt8} {c : UInt8}

theorem rTrim_initial (p : UInt8 → Bool) (str : List UInt8) : rTrim p str <+: str := List.rdropWhile_prefix p str

theorem mem_of_mem_trim (mem : c ∈ trim str) : c ∈ str := (rTrim_initial blank str).subset ((List.dropWhile_suffix _).subset mem)

theorem rTrim_append (other : p c = false) (a v : List UInt8) : rTrim p (a ++ c :: v) = a ++ c :: rTrim p v := by
  induction v using List.reverseRecOn with
  | nil =>
    rw [rTrim, List.rdropWhile_concat_neg p _ c (by rw [other]; exact Bool.false_ne_true)]
    rfl
  | append_singleton v x ih =>
    have whole : a ++ c :: (v ++ [x]) = (a ++ c :: v) ++ [x] := by simp
    rw [rTrim] at ih
    rw [whole, rTrim, rTrim, List.rdropWhile_concat, List.rdropWhile_concat]
    split_ifs
    · exact ih
    · exact whole.symm

theorem rTrim_eq_self (last : ∀ c ∈ str.getLast?, p c = false) : rTrim p str = str := by
  rw [rTrim, List.rdropWhile_eq_self_iff]
  intro some_
  rw [last _ (List.getLast?_eq_some_getLast some_)]
  exact Bool.false_ne_true

theorem rTrim_last (str : List UInt8) : ∀ c ∈ (rTrim p str).getLast?, p c = false := by
  intro c last
  cases found : rTrim p str with
  | nil =>
    rw [found] at last
    cases last
  | cons x rest =>
    have some_ : str.rdropWhile p ≠ [] := by
      rw [show str.rdropWhile p = x :: rest from found]
      exact List.cons_ne_nil _ _
    rw [rTrim, List.getLast?_eq_some_getLast some_] at last
    rw [← Option.some.inj last]
    exact Bool.not_eq_true _ ▸ List.rdropWhile_last_not p str some_

theorem lTrim_head (str : List UInt8) : ∀ c ∈ (lTrim str).head?, blank c = false := by
  intro c head
  have first := List.head?_dropWhile_not blank str
  rw [lTrim] at head
  rw [show (str.dropWhile blank).head? = some c from head] at first
  simpa using first

theorem lTrim_eq_self (head : ∀ c ∈ str.head?, blank c = false) : lTrim str = str := by
  cases str with
  | nil => rfl
  | cons c str => exact List.dropWhile_cons_of_neg (by rw [head c rfl]; exact Bool.false_ne_true)

theorem lTrim_append (head : ∀ c ∈ name.head?, blank c = false) (some_ : name ≠ []) (a : List UInt8) : lTrim (name ++ a) = name ++ a := by
  apply lTrim_eq_self
  cases name with
  | nil => exact absurd rfl some_
  | cons c name => exact head

theorem trim_head (trimmed : trim name = name) : ∀ c ∈ name.head?, blank c = false := by
  rw [← trimmed]
  exact lTrim_head _

/-- What was trimmed stays as it is. -/
theorem trim_trim (str : List UInt8) : trim (trim str) = trim str := by
  have last : ∀ c ∈ (trim str).getLast?, blank c = false := by
    intro c last
    refine rTrim_last (p := blank) str c ?_
    obtain ⟨front, whole⟩ : trim str <:+ rTrim blank str := List.dropWhile_suffix _
    rw [← whole, List.getLast?_append, last]
    rfl
  rw [trim, rTrim_eq_self last]
  exact lTrim_eq_self (lTrim_head _)

/-- A name that begins with a bracket is known by what is compared of it. -/
theorem folded_bracket (head : name.head? = some 91) : (folded name).head? = some 91 := by
  obtain ⟨rest, rfl⟩ : ∃ rest, name = 91 :: rest := by
    cases name with
    | nil => cases head
    | cons c rest => exact ⟨rest, by rw [Option.some.inj head]⟩
  rfl

theorem bracket_of_folded (head : (folded name).head? = some 91) : name.head? = some 91 := by
  cases name with
  | nil => cases head
  | cons c name =>
    rw [folded, List.takeWhile_cons] at head
    split_ifs at head with nul
    · have low : (tolower c).toNat = 91 := Option.some.inj head
      rw [tolower] at low
      split_ifs at low with upper
      · have first := UInt8.le_iff_toNat_le.1 upper.1
        have second := UInt8.le_iff_toNat_le.1 upper.2
        rw [UInt8.toNat_add] at low
        have : (65 : UInt8).toNat = 65 ∧ (90 : UInt8).toNat = 90 ∧ (32 : UInt8).toNat = 32 := ⟨rfl, rfl, rfl⟩
        omega
      · exact congrArg some (UInt8.toNat_inj.1 low)
    · cases head

/-- A name that does not begin with a blank is trimmed at its end only. -/
theorem trim_eq_rTrim (head : ∀ c ∈ name.head?, blank c = false) (some_ : name ≠ []) : trim name = rTrim blank name ∧
    (rTrim blank name).head? = name.head? := by
  obtain ⟨rest, whole⟩ := rTrim_initial blank name
  have left : rTrim blank name ≠ [] := by
    intro all
    obtain ⟨c, name, rfl⟩ := List.exists_cons_of_ne_nil some_
    have is := List.rdropWhile_eq_nil_iff.1 all c List.mem_cons_self
    rw [head c rfl] at is
    exact Bool.false_ne_true is
  have same : (rTrim blank name).head? = name.head? := by
    rw [← List.head?_append_of_ne_nil _ left, whole]
  exact ⟨lTrim_eq_self (by rw [same]; exact head), same⟩

end Trimming

section Lines

variable {n : Nat} {lines : List (List UInt8)} {line : List UInt8} {k : IniKey} {s : IniSection} {windows : Bool}

theorem getlines_line (noLine : 10 ∉ line) (rest : List UInt8) : getlines (n + 1) (line ++ 10 :: rest) = line :: getlines n rest := by
  have other : ∀ c ∈ line, (decide (c ≠ 10)) = true := by
    intro c mem
    refine decide_eq_true ?_
    rintro rfl
    exact noLine mem
  rw [getlines, if_neg (by simp), List.takeWhile_append_of_pos other, List.dropWhile_append_of_pos other]
  simp

/-- The lines that were written are read. -/
theorem getlines_lines (noLine : ∀ line ∈ lines, 10 ∉ line) (enough : lines.length ≤ n) :
    getlines n (lines.flatMap fun line => line ++ [10]) = lines := by
  induction lines generalizing n with
  | nil => cases n <;> rfl
  | cons line lines ih =>
    obtain ⟨n, rfl⟩ : ∃ m, n = m + 1 := ⟨n - 1, by rw [List.length_cons] at enough; omega⟩
    have text : ((line :: lines).flatMap fun line => line ++ [10]) = line ++ 10 :: lines.flatMap fun line => line ++ [10] := by simp
    rw [text, getlines_line (noLine line List.mem_cons_self),
      ih (fun l mem => noLine l (List.mem_cons_of_mem line mem)) (Nat.le_of_succ_le_succ enough)]

theorem mem_getlines (n : Nat) (input : List UInt8) : ∀ line ∈ getlines n input, 10 ∉ line := by
  induction n generalizing input with
  | zero => exact fun line none' => by cases none'
  | succ n ih =>
    rw [getlines]
    split_ifs
    · exact fun line none' => by cases none'
    · intro line mem
      rcases List.mem_cons.1 mem with rfl | mem
      · intro is
        simpa using List.mem_takeWhile_imp is
      · exact ih _ line mem

/-- A line without blanks before it and returns behind it is read as it was, with or without the carriage return. -/
theorem readLine_eq (some_ : line ≠ []) (head : ∀ c ∈ line.head?, blank c = false) (last : ∀ c ∈ line.getLast?, returns c = false) :
    readLine line = line ∧ readLine (line ++ [13]) = line := by
  have kept : line.rdropWhile returns = line := rTrim_eq_self last
  refine ⟨?_, ?_⟩
  · rw [readLine, lTrim_eq_self head]
    exact kept
  · rw [readLine, lTrim_append head some_, rTrim, List.rdropWhile_concat_pos _ _ _ (by rfl)]
    exact kept

theorem keyLine_ends (writable : k.Writable) : keyLine k ≠ [] ∧ (∀ c ∈ (keyLine k).head?, blank c = false) ∧
    ∀ c ∈ (keyLine k).getLast?, returns c = false := by
  refine ⟨by simp [keyLine], ?_, ?_⟩
  · rw [keyLine, List.head?_append_of_ne_nil _ writable.some_]
    exact trim_head writable.trimmed
  · intro c last
    rw [keyLine, List.getLast?_append, List.getLast?_cons] at last
    cases value : k.m_sValue.getLast? with
    | none =>
      rw [value] at last
      obtain rfl : 61 = c := by simpa using last
      rfl
    | some x =>
      rw [value] at last
      obtain rfl : x = c := by simpa using last
      have noReturn := writable.noReturn
      have noLine := writable.noLine.2
      rw [value] at noReturn
      rw [returns, Bool.or_eq_false_iff, decide_eq_false_iff_not, decide_eq_false_iff_not]
      constructor
      · rintro rfl
        exact noLine (List.mem_of_getLast? value)
      · rintro rfl
        exact noReturn rfl

theorem entry_section (s : IniSection) : entry (sectionLine s) = some (.section_ s.m_sSectionName) := by
  have last : (rTrim white (sectionLine s)).getLast? = some 93 := by
    have whole : sectionLine s = (91 :: s.m_sSectionName) ++ 93 :: [] := rfl
    rw [whole, rTrim_append (by rfl)]
    exact List.getLast?_concat
  have kind : lineType (sectionLine s) = .section_ := by rw [lineType, if_pos ⟨rfl, last⟩]
  rw [entry, if_neg (by simp [sectionLine]), kind]
  simp [sectionLine]

/-- A line is of a section if it begins with a bracket and, blanks apart, ends with one. -/
theorem last_keyLine (name v : List UInt8) : (rTrim white (name ++ 61 :: v)).getLast? = some 93 ↔ (rTrim white v).getLast? = some 93 := by
  rw [rTrim_append (by rfl), List.getLast?_append, List.getLast?_cons]
  cases (rTrim white v).getLast? with
  | none => simp
  | some x => simp

theorem entry_key (writable : k.Writable) : entry (keyLine k) = some (.key k.m_sKeyName k.m_sValue) := by
  have position : (keyLine k).idxOf 61 = k.m_sKeyName.length := by
    rw [keyLine, List.idxOf_append_of_notMem writable.noSign]
    simp
  have noSection : ¬ ((keyLine k).head? = some 91 ∧ (rTrim white (keyLine k)).getLast? = some 93) := by
    rintro ⟨head, last⟩
    rw [keyLine, List.head?_append_of_ne_nil _ writable.some_] at head
    exact writable.noBracket (folded_bracket head) ((last_keyLine _ _).1 last)
  have inside : 61 ∈ keyLine k ∧ 0 < (keyLine k).idxOf 61 := by
    rw [position]
    exact ⟨by simp [keyLine], List.length_pos_of_ne_nil writable.some_⟩
  have kind : lineType (keyLine k) = .key := by
    unfold lineType
    rw [if_neg noSection, if_pos inside]
  rw [entry, if_neg (keyLine_ends writable).1, kind]
  dsimp only
  rw [position]
  simp [keyLine]

end Lines

section Loading

variable {f g : IniFile} {ks : List IniKey} {ss : List IniSection} {k : IniKey} {s : IniSection} {m : KeyIndex} {windows : Bool}

/-- What is before the line feed. -/
def cr (windows : Bool) : List UInt8 := if windows then [13] else []

theorem crlf_eq (windows : Bool) : crlf windows = cr windows ++ [10] := by
  cases windows <;> rfl

theorem readLine_cr {line : List UInt8} (some_ : line ≠ []) (head : ∀ c ∈ line.head?, blank c = false)
    (last : ∀ c ∈ line.getLast?, returns c = false) (windows : Bool) : readLine (line ++ cr windows) = line := by
  cases windows with
  | false =>
    rw [cr, if_neg Bool.false_ne_true, List.append_nil]
    exact (readLine_eq some_ head last).1
  | true => exact (readLine_eq some_ head last).2

/-- A key of the section that is read, which it has not yet. -/
theorem loadEntry_key (writable : k.Writable) (fresh : m.find (folded k.m_sKeyName) = none) (g : IniFile) (name : Name) :
    (g.store ⟨name, m⟩).loadEntry (some name) (entry (readLine (keyLine k ++ cr windows))) = (g.store ⟨name, m.put k⟩, some name) := by
  obtain ⟨some_, head, last⟩ := keyLine_ends writable
  have section_ : (g.store ⟨name, m⟩).m_sections.find (folded name) = some ⟨name, m⟩ := KeyedSet.find_put.trans (if_pos rfl)
  have absent : IniSection.getKey ⟨name, m⟩ k.m_sKeyName = none := by rw [IniSection.getKey, writable.trimmed]; exact fresh
  have added : IniSection.setKeyValue ⟨name, m⟩ k.m_sKeyName k.m_sValue = ⟨name, m.put k⟩ := by
    rw [IniSection.setKeyValue, IniSection.addKey, absent, writable.trimmed]
    exact congrArg (IniSection.mk name) (KeyedSet.put_put rfl)
  rw [readLine_cr some_ head last, entry_key writable, IniFile.loadEntry, Option.bind_some, section_]
  dsimp only
  rw [added]
  exact congrArg (fun m_sections => (IniFile.mk m_sections, some name)) (KeyedSet.put_put rfl)

/-- The keys of a section are read into it. -/
theorem loadEntries_keys (writable : ∀ k ∈ ks, k.Writable)
    (sorted : ks.Pairwise fun a b => folded a.m_sKeyName < folded b.m_sKeyName)
    (fresh : ∀ k ∈ ks, m.find (folded k.m_sKeyName) = none) (g : IniFile) (name : Name) :
    (g.store ⟨name, m⟩).loadEntries (some name) (ks.map fun k => keyLine k ++ cr windows) =
      (g.store ⟨name, ks.foldl KeyedSet.put m⟩, some name) := by
  induction ks generalizing m with
  | nil => rfl
  | cons k ks ih =>
    obtain ⟨first, sorted⟩ := List.pairwise_cons.1 sorted
    have here := @loadEntry_key _ _ windows (writable k List.mem_cons_self) (fresh k List.mem_cons_self) g name
    have fresh' : ∀ k' ∈ ks, (m.put k).find (folded k'.m_sKeyName) = none := by
      intro k' mem
      rw [KeyedSet.find_put, if_neg (ne_of_gt (first k' mem))]
      exact fresh k' (List.mem_cons_of_mem k mem)
    rw [List.map_cons, IniFile.loadEntries, List.foldl_cons, here]
    exact ih (fun k' mem => writable k' (List.mem_cons_of_mem k mem)) sorted fresh'

theorem sectionLine_ends (s : IniSection) : sectionLine s ≠ [] ∧ (∀ c ∈ (sectionLine s).head?, blank c = false) ∧
    ∀ c ∈ (sectionLine s).getLast?, returns c = false := by
  refine ⟨by simp [sectionLine], ?_, ?_⟩
  · intro c head
    obtain rfl : 91 = c := Option.some.inj head
    rfl
  · intro c last
    have last' : (sectionLine s).getLast? = some 93 := List.getLast?_concat (l := 91 :: s.m_sSectionName)
    rw [last'] at last
    obtain rfl : 93 = c := Option.some.inj last
    rfl

/-- The lines of a section that is not there yet. -/
theorem loadEntries_section (writable : s.Writable) (fresh : g.m_sections.find (folded s.m_sSectionName) = none) (p : Option Name) :
    g.loadEntries p (s.lines.map fun line => line ++ cr windows) = (g.store s, some s.m_sSectionName) := by
  obtain ⟨some_, head, last⟩ := sectionLine_ends s
  have absent : g.getSection s.m_sSectionName = none := by rw [IniFile.getSection, writable.trimmed]; exact fresh
  have begun : g.loadEntry p (entry (readLine (sectionLine s ++ cr windows))) =
      (g.store ⟨s.m_sSectionName, .empty⟩, some s.m_sSectionName) := by
    rw [readLine_cr some_ head last, entry_section, IniFile.loadEntry, IniFile.addSection, absent, writable.trimmed]
  have keys := @loadEntries_keys _ _ windows writable.keys s.m_keys.items_sorted (fun k _ => KeyedSet.find_empty _) g s.m_sSectionName
  rw [KeyedSet.foldl_put_items] at keys
  rw [IniSection.lines, List.map_cons, List.map_map, IniFile.loadEntries, List.foldl_cons, begun]
  exact keys

theorem loadEntries_sections (writable : ∀ s ∈ ss, s.Writable)
    (sorted : ss.Pairwise fun a b => folded a.m_sSectionName < folded b.m_sSectionName)
    (fresh : ∀ s ∈ ss, g.m_sections.find (folded s.m_sSectionName) = none) (p : Option Name) :
    (g.loadEntries p (ss.flatMap fun s => s.lines.map fun line => line ++ cr windows)).1 = ⟨ss.foldl KeyedSet.put g.m_sections⟩ := by
  induction ss generalizing g p with
  | nil => rfl
  | cons s ss ih =>
    obtain ⟨first, sorted⟩ := List.pairwise_cons.1 sorted
    have here := @loadEntries_section _ _ windows (writable s List.mem_cons_self) (fresh s List.mem_cons_self) p
    have fresh' : ∀ s' ∈ ss, (g.store s).m_sections.find (folded s'.m_sSectionName) = none := by
      intro s' mem
      refine KeyedSet.find_put.trans ?_
      rw [if_neg (ne_of_gt (first s' mem))]
      exact fresh s' (List.mem_cons_of_mem s mem)
    rw [IniFile.loadEntries] at here
    rw [List.flatMap_cons, IniFile.loadEntries, List.foldl_append, here]
    exact ih (fun s' mem => writable s' (List.mem_cons_of_mem s mem)) sorted fresh' _

theorem mem_lines (writable : f.Writable) {line : List UInt8}
    (mem : line ∈ f.m_sections.items.flatMap fun s => s.lines.map fun line => line ++ cr windows) : 10 ∉ line := by
  obtain ⟨s, inside, mem⟩ := List.mem_flatMap.1 mem
  obtain ⟨line, line_mem, rfl⟩ := List.mem_map.1 mem
  have noReturn : 10 ∉ cr windows := by cases windows <;> decide
  have noLine : 10 ∉ line := by
    rcases List.mem_cons.1 line_mem with rfl | line_mem
    · have := (writable s inside).noLine
      simp [sectionLine, this]
    · obtain ⟨k, key, rfl⟩ := List.mem_map.1 line_mem
      have := ((writable s inside).keys k key).noLine
      simp [keyLine, this]
  simp [noLine, noReturn]

theorem length_le_lines (lines : List (List UInt8)) : lines.length ≤ (lines.flatMap fun line => line ++ [10]).length := by
  induction lines with
  | nil => exact Nat.le_refl _
  | cons line lines ih =>
    rw [List.flatMap_cons, List.length_append, List.length_append, List.length_cons, List.length_singleton]
    omega

/-- What is saved of a writable file is loaded as the same file. -/
theorem load_save_writable (writable : f.Writable) (g : IniFile) (windows : Bool) : g.load (f.save windows) false = f := by
  have text : f.save windows =
      (f.m_sections.items.flatMap fun s => s.lines.map fun line => line ++ cr windows).flatMap fun line => line ++ [10] := by
    rw [IniFile.save, List.flatMap_assoc]
    refine List.flatMap_congr fun s _ => ?_
    rw [List.flatMap_map]
    refine List.flatMap_congr fun line _ => ?_
    rw [crlf_eq, List.append_assoc]
  have lines := getlines_lines (n := (f.save windows).length) (fun line mem => @mem_lines _ windows writable line mem)
    (by rw [text]; exact length_le_lines _)
  rw [← text] at lines
  have loaded := @loadEntries_sections .empty _ windows writable f.m_sections.items_sorted
    (fun s _ => KeyedSet.find_empty _) none
  rw [IniFile.load, lines]
  refine loaded.trans ?_
  exact congrArg IniFile.mk f.m_sections.foldl_put_items

end Loading

section Invariant

variable {f : IniFile} {s : IniSection} {k : IniKey} {name v : List UInt8} {windows : Bool}

theorem writable_store (writable : f.Writable) (here : s.Writable) : (f.store s).Writable := by
  intro s' mem
  rcases KeyedSet.mem_items_put mem with rfl | mem
  · exact here
  · exact writable s' mem

theorem writable_erase (writable : f.Writable) (s : List Nat) : IniFile.Writable ⟨f.m_sections.erase s⟩ :=
  fun s' mem => writable s' (KeyedSet.mem_items_erase mem)

theorem writable_getSection (writable : f.Writable) (found : f.getSection name = some s) : s.Writable :=
  writable s (KeyedSet.mem_items_of_find found)

theorem writable_addSection (writable : f.Writable) (noLine : 10 ∉ name) :
    (f.addSection name).2.Writable ∧ (f.addSection name).1.Writable := by
  rw [IniFile.addSection]
  cases found : f.getSection name with
  | some pSec => exact ⟨writable, writable_getSection writable found⟩
  | none =>
    have new : IniSection.Writable ⟨trim name, .empty⟩ :=
      ⟨trim_trim name, fun mem => noLine (mem_of_mem_trim mem), fun k mem => by cases mem⟩
    exact ⟨writable_store writable new, new⟩

theorem writable_addKey (writable : s.Writable) (some_ : trim name ≠ []) (noSign : 61 ∉ name) (noLine : 10 ∉ name) :
    (s.addKey name).2.Writable ∧ (s.addKey name).1.Writable := by
  rw [IniSection.addKey]
  cases found : s.getKey name with
  | some pKey => exact ⟨writable, writable.keys pKey (KeyedSet.mem_items_of_find found)⟩
  | none =>
    -- A key without a value ends in its sign, not in a bracket.
    have new : IniKey.Writable ⟨trim name, []⟩ :=
      ⟨some_, trim_trim name, fun mem => noSign (mem_of_mem_trim mem), ⟨fun mem => noLine (mem_of_mem_trim mem), List.not_mem_nil⟩,
        by simp, fun _ => by simp [rTrim]⟩
    refine ⟨⟨writable.trimmed, writable.noLine, ?_⟩, new⟩
    intro k mem
    rcases KeyedSet.mem_items_put mem with rfl | mem
    · exact new
    · exact writable.keys k mem

/-- What changes a section that is there keeps the file as good as the section. -/
theorem writable_section (writable : f.Writable) {op : IniSection → IniSection} (keeps : ∀ sec : IniSection, sec.Writable → (op sec).Writable)
    (name : Name) : IniFile.Writable (match f.getSection name with | some pSec => f.store (op pSec) | none => f) := by
  cases found : f.getSection name with
  | none => exact writable
  | some pSec => exact writable_store writable (keeps pSec (writable_getSection writable found))

/-- A key that is set, where the line is not that of a section. -/
theorem writable_setKeyValue (writable : s.Writable) (some_ : trim name ≠ []) (noSign : 61 ∉ name) (noLine : 10 ∉ name ∧ 10 ∉ v)
    (noReturn : v.getLast? ≠ some 13) (noBracket : (ident name).head? = some 91 → (rTrim white v).getLast? ≠ some 93) :
    (s.setKeyValue name v).Writable := by
  obtain ⟨section_, key⟩ := writable_addKey writable some_ noSign noLine.1
  have bracket : (folded (s.addKey name).1.m_sKeyName).head? = some 91 → (rTrim white v).getLast? ≠ some 93 := by
    rw [addKey_name]
    exact noBracket
  refine ⟨section_.trimmed, section_.noLine, ?_⟩
  intro k mem
  rcases KeyedSet.mem_items_put mem with rfl | mem
  · exact ⟨key.some_, key.trimmed, key.noSign, ⟨key.noLine.1, noLine.2⟩, noReturn, bracket⟩
  · exact section_.keys k mem

theorem writable_removeKey (writable : s.Writable) (name : Name) : (s.removeKey name).Writable := by
  rw [IniSection.removeKey]
  cases s.getKey name with
  | none => exact writable
  | some pKey => exact ⟨writable.trimmed, writable.noLine, fun k mem => writable.keys k (KeyedSet.mem_items_erase mem)⟩

theorem writable_removeAllKeys (writable : s.Writable) : s.removeAllKeys.Writable :=
  ⟨writable.trimmed, writable.noLine, fun k mem => by cases mem⟩

theorem writable_setKeyName (writable : s.Writable) (key : k.Writable) (named : KeyName name) : (s.setKeyName k name).2.Writable := by
  rw [IniSection.setKeyName]
  cases s.m_keys.find (folded (trim name)) with
  | some other => exact writable
  | none =>
    refine ⟨writable.trimmed, writable.noLine, ?_⟩
    intro k' mem
    rcases KeyedSet.mem_items_put mem with rfl | mem
    · obtain ⟨some_, noSign, noLine, noBracket⟩ := named
      exact ⟨some_, trim_trim name, fun mem => noSign (mem_of_mem_trim mem), ⟨fun mem => noLine (mem_of_mem_trim mem), key.noLine.2⟩,
        key.noReturn, fun head => absurd head noBracket⟩
    · exact writable.keys k' (KeyedSet.mem_items_erase mem)

theorem writable_renameSection (writable : f.Writable) (name : Name) {name' : Name} (noLine : 10 ∉ name') :
    (f.renameSection name name').2.Writable := by
  rw [IniFile.renameSection]
  cases found : f.getSection name with
  | none => exact writable
  | some pSec =>
    have old := writable_getSection writable found
    dsimp only [IniFile.setSectionName]
    cases f.m_sections.find (folded (trim name')) with
    | some other => exact writable
    | none =>
      exact writable_store (writable_erase writable _) ⟨trim_trim name', fun mem => noLine (mem_of_mem_trim mem), old.keys⟩

/-- The line of an entry that was read. -/
theorem entry_writable {line : List UInt8} (noLine : 10 ∉ line) : match entry (readLine line) with
    | some (.section_ sSection) => 10 ∉ sSection
    | some (.key sKey sValue) => trim sKey ≠ [] ∧ 61 ∉ sKey ∧ (10 ∉ sKey ∧ 10 ∉ sValue) ∧ sValue.getLast? ≠ some 13 ∧
        ((ident sKey).head? = some 91 → (rTrim white sValue).getLast? ≠ some 93)
    | none => True := by
  have inside : ∀ c ∈ readLine line, c ∈ line := fun c mem =>
    (List.dropWhile_suffix _).subset ((rTrim_initial returns (lTrim line)).subset mem)
  have head : ∀ c ∈ (readLine line).head?, blank c = false := by
    intro c first
    obtain ⟨rest, whole⟩ := rTrim_initial returns (lTrim line)
    refine lTrim_head line c ?_
    rw [← whole, List.head?_append, show (rTrim returns (lTrim line)).head? = some c from first]
    rfl
  have last := rTrim_last (p := returns) (lTrim line)
  change ∀ c ∈ (readLine line).getLast?, returns c = false at last
  generalize readLine line = sRead at inside head last
  have noLine' : 10 ∉ sRead := fun mem => noLine (inside 10 mem)
  rw [entry]
  split_ifs with empty
  · exact trivial
  · cases kind : lineType sRead with
    | section_ => exact fun mem => noLine' (List.mem_of_mem_drop (List.mem_of_mem_take mem))
    | comment => exact trivial
    | other => exact trivial
    | key =>
      unfold lineType at kind
      split_ifs at kind with section_ sign
      · obtain ⟨sKey, sValue, rfl, noSign⟩ := List.eq_append_cons_of_mem sign.1
        have position : (sKey ++ 61 :: sValue).idxOf 61 = sKey.length := by
          rw [List.idxOf_append_of_notMem noSign]
          simp
        rw [position] at sign
        have some_ : sKey ≠ [] := List.ne_nil_of_length_pos sign.2
        have head' : ∀ c ∈ sKey.head?, blank c = false := by
          rw [← List.head?_append_of_ne_nil _ some_]
          exact head
        obtain ⟨trimmed, first⟩ := trim_eq_rTrim head' some_
        dsimp only
        have behind : (sKey ++ 61 :: sValue).drop (sKey.length + 1) = sValue := by simp
        rw [position, List.take_left, behind]
        refine ⟨?_, noSign, ⟨fun mem => noLine' (by simp [mem]), fun mem => noLine' (by simp [mem])⟩, ?_, ?_⟩
        · rw [trimmed]
          intro none'
          rw [none'] at first
          obtain ⟨c, rest, rfl⟩ := List.exists_cons_of_ne_nil some_
          cases first
        · intro returned
          have is := last 13 (by rw [List.getLast?_append, List.getLast?_cons, returned]; rfl)
          exact absurd is (by decide)
        · intro bracket closed
          have first' : sKey.head? = some 91 := by
            rw [← first, ← trimmed]
            exact bracket_of_folded bracket
          exact section_ ⟨by rw [List.head?_append_of_ne_nil _ some_]; exact first', (last_keyLine _ _).2 closed⟩

theorem writable_loadEntry {line : List UInt8} (writable : f.Writable) (noLine : 10 ∉ line) (pSection : Option Name) :
    (f.loadEntry pSection (entry (readLine line))).1.Writable := by
  have said := entry_writable noLine
  cases read : entry (readLine line) with
  | none => exact writable
  | some e =>
    rw [read] at said
    cases e with
    | section_ sSection => exact (writable_addSection writable said).1
    | key sKey sValue =>
      obtain ⟨some_, noSign, noLine, noReturn, noBracket⟩ := said
      rw [IniFile.loadEntry]
      cases found : pSection.bind fun name => f.m_sections.find (folded name) with
      | none => exact writable
      | some pSec =>
        obtain ⟨name, -, here⟩ := Option.bind_eq_some_iff.1 found
        exact writable_store writable
          (writable_setKeyValue (writable pSec (KeyedSet.mem_items_of_find here)) some_ noSign noLine noReturn noBracket)

theorem writable_loadEntries {lines : List (List UInt8)} (writable : f.Writable) (noLine : ∀ line ∈ lines, 10 ∉ line)
    (pSection : Option Name) : (f.loadEntries pSection lines).1.Writable := by
  induction lines generalizing f pSection with
  | nil => exact writable
  | cons line lines ih =>
    exact ih (writable_loadEntry writable (noLine line List.mem_cons_self) pSection)
      (fun l mem => noLine l (List.mem_cons_of_mem line mem)) _

theorem writable_empty : IniFile.empty.Writable := fun s mem => by cases mem

/-- Every text is loaded as a writable file. -/
theorem writable_load (writable : f.Writable) (input : List UInt8) (bMerge : Bool) : (f.load input bMerge).Writable := by
  rw [IniFile.load]
  apply writable_loadEntries _ (mem_getlines _ _)
  cases bMerge with
  | false => exact writable_empty
  | true => exact writable

theorem writable_call (writable : f.Writable) (c : Call) (ok : c.Writable) : (f.call c).2.Writable := by
  cases c with
  | addSection s => exact (writable_addSection writable ok).1
  | getKeyValue s k => exact writable
  | setKeyValue s k v =>
    obtain ⟨noLine, ⟨some_, noSign, noLine', noBracket⟩, value, noReturn⟩ := ok
    obtain ⟨file, section_⟩ := writable_addSection writable noLine
    exact writable_store file
      (writable_setKeyValue section_ some_ noSign ⟨noLine', value⟩ noReturn fun head => absurd head noBracket)
  | addKey s k =>
    obtain ⟨some_, noSign, noLine, -⟩ := ok
    exact writable_section writable (fun sec here => (writable_addKey here some_ noSign noLine).1) s
  | removeSection s =>
    show (f.removeSection s).Writable
    rw [IniFile.removeSection]
    cases f.getSection s with
    | none => exact writable
    | some pSec => exact writable_erase writable _
  | removeAllSections => exact writable_empty
  | removeKey s k => exact writable_section writable (fun sec here => writable_removeKey here k) s
  | removeAllKeys s => exact writable_section writable (fun _ => writable_removeAllKeys) s
  | renameSection s s' => exact writable_renameSection writable s ok
  | renameKey s k k' =>
    show (f.renameKey s k k').2.Writable
    rw [IniFile.renameKey]
    cases found : f.getSection s with
    | none => exact writable
    | some pSec =>
      have section_ := writable_getSection writable found
      dsimp only
      cases key : pSec.getKey k with
      | none => exact writable
      | some pKey =>
        exact writable_store writable (writable_setKeyName section_ (section_.keys pKey (KeyedSet.mem_items_of_find key)) ok)
  | load input bMerge => exact writable_load writable input bMerge

theorem writable_run (calls : List Call) (ok : ∀ c ∈ calls, c.Writable) (writable : f.Writable) : (f.run calls).2.Writable := by
  induction calls generalizing f with
  | nil => exact writable
  | cons c calls ih =>
    exact ih (fun c' mem => ok c' (List.mem_cons_of_mem c mem)) (writable_call writable c (ok c List.mem_cons_self))

/-- **A file is saved and loaded without loss after every run of calls**, whatever texts were loaded in it, on both kinds of systems. -/
theorem load_save (calls : List Call) (ok : ∀ c ∈ calls, c.Writable) (g : IniFile) (windows : Bool) :
    g.load ((IniFile.empty.run calls).2.save windows) false = (IniFile.empty.run calls).2 :=
  load_save_writable (writable_run calls ok writable_empty) g windows

/-- A text is loaded, a key is set and the section renamed. -/
theorem load_save_renamed : IniFile.load .empty ((IniFile.empty.run [.load [91, 65, 93, 10, 107, 61, 49, 10] false,
    .setKeyValue [97] [75, 50] [93], .renameSection [65] [66]]).2.save true) false = (IniFile.empty.run
      [.load [91, 65, 93, 10, 107, 61, 49, 10] false, .setKeyValue [97] [75, 50] [93], .renameSection [65] [66]]).2 := by
  apply load_save
  intro c mem
  simp only [List.mem_cons, List.not_mem_nil, or_false] at mem
  rcases mem with rfl | rfl | rfl
  · exact trivial
  · exact ⟨by decide, ⟨by decide, by decide, by decide, by decide⟩, by decide, by decide⟩
  · show 10 ∉ [66]
    decide

end Invariant

end GameServer.LibGame.Ini

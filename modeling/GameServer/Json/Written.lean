import GameServer.Json.Texts

/-!
# What is written is read back

The texts of the fast writer and of the styled writer are texts of the value that was written. A number comes back in the type that the
reader gives it (`canonical`): unsigned only if it is beyond `int`.
-/

namespace GameServer.Json

open GameServer.Lib

variable {D : Doubles}

mutual

/-- The value as the reader makes it. -/
def TextValue.canonical : TextValue D → TextValue D
  | .null => .null
  | .int n => if 0 ≤ n.toInt then unsignedValue n.toInt.natAbs else .int n
  | .uint n => unsignedValue n.toNat
  | .real x => .real x
  | .string s => .string s
  | .boolean b => .boolean b
  | .array elements => .array (canonicalElements elements)
  | .object members => .object (canonicalMembers members)

def canonicalElements : List (TextValue D) → List (TextValue D)
  | [] => []
  | v :: elements => v.canonical :: canonicalElements elements

def canonicalMembers : List (CString × TextValue D) → List (CString × TextValue D)
  | [] => []
  | (name, v) :: members => (name, v.canonical) :: canonicalMembers members

end

/-- A value that can be written: the members of every object are in the order of a map, and the real numbers are written exactly. -/
inductive TextValue.Readable : TextValue D → Prop where
  | null : Readable .null
  | int (n : Int64) : Readable (.int n)
  | uint (n : UInt64) : Readable (.uint n)
  | real {x : D.Double} (written : D.Exact x) : Readable (.real x)
  | string (s : CString) : Readable (.string s)
  | boolean (b : Bool) : Readable (.boolean b)
  | array {elements : List (TextValue D)} (inside : ∀ v ∈ elements, Readable v) : Readable (.array elements)
  | object {members : List (CString × TextValue D)} (sorted : members.Pairwise fun a b => a.1 < b.1)
      (inside : ∀ m ∈ members, Readable m.2) : Readable (.object members)

section Canonical

variable {v : TextValue D} {elements : List (TextValue D)} {members : List (CString × TextValue D)} {name : CString}

theorem canonical_isContainer (v : TextValue D) : v.canonical.isContainer = v.isContainer := by
  cases v with
  | int n =>
    rw [TextValue.canonical, unsignedValue]
    split_ifs <;> rfl
  | uint n =>
    rw [TextValue.canonical, unsignedValue]
    split_ifs <;> rfl
  | _ => rfl

theorem before_canonicalMembers (first : ∀ m ∈ members, name < m.1) : ∀ m ∈ canonicalMembers members, name < m.1 := by
  induction members with
  | nil => exact first
  | cons m members ih =>
    obtain ⟨name', v⟩ := m
    intro m mem
    rcases List.mem_cons.1 mem with rfl | mem
    · exact first (name', v) List.mem_cons_self
    · exact ih (fun m mem => first m (List.mem_cons_of_mem _ mem)) m mem

/-- What the reader makes is canonical. -/
theorem TextValue.Normal.canonical (normal : v.Normal) : v.canonical = v := by
  induction normal with
  | null => rfl
  | int small =>
    rename_i n
    rw [TextValue.canonical]
    split_ifs with sign
    · rw [unsignedValue, if_pos (by omega), Int.natAbs_of_nonneg sign, Int64.ofInt_toInt]
    · rfl
  | uint large =>
    rw [TextValue.canonical, unsignedValue, if_neg (by omega), UInt64.ofNat_toNat]
  | real x => rfl
  | string s => rfl
  | boolean b => rfl
  | @array elements inside ih =>
    have same : canonicalElements elements = elements := by
      clear inside
      induction elements with
      | nil => rfl
      | cons v elements ih' =>
        rw [canonicalElements, ih v List.mem_cons_self, ih' fun u mem => ih u (List.mem_cons_of_mem v mem)]
    rw [TextValue.canonical, same]
  | @object members sorted inside ih =>
    have same : canonicalMembers members = members := by
      clear inside sorted
      induction members with
      | nil => rfl
      | cons m members ih' =>
        have here : m.2.canonical = m.2 := ih m List.mem_cons_self
        obtain ⟨name, v⟩ := m
        rw [canonicalMembers, ih' fun u mem => ih u (List.mem_cons_of_mem _ mem), here]
    rw [TextValue.canonical, same]

end Canonical

section Documents

variable {v : TextValue D} {text sp : List UInt8} {features_ : Features}

theorem reads_int (n : Int64) : Reads (D := D) (TextValue.canonical (.int n)) (intText n.toInt) := by
  have low := n.le_toInt
  have high := n.toInt_lt
  rw [TextValue.canonical, intText]
  split_ifs with sign negative negative
  · omega
  · exact reads_natText (by omega)
  · have value : (-(n.toInt.natAbs : Int)) = n.toInt := by omega
    have read := reads_negative (D := D) (n := n.toInt.natAbs) (by omega)
    rw [value, Int64.ofInt_toInt] at read
    exact read
  · omega

theorem reads_uint (n : UInt64) : Reads (D := D) (TextValue.canonical (.uint n)) (natText n.toNat) := by
  have high := n.toNat_lt
  exact reads_natText (by omega)

/-- The reader of a document that is a text of a value. -/
theorem parse_reads (reads : Reads v text) (blank : Blank sp) (strict : features_.strictRoot_ = true → v.isContainer = true)
    (root : TextValue D) : ∃ r, parse features_ (text ++ sp) root = some (true, v, r) ∧ r.errors_ = [] := by
  have stops : Stops sp := by
    rw [← List.append_nil sp]
    exact .of_blank blank fun _ none' => by cases none'
  rw [parse, reads.read features_ sp [] root _ stops (by rw [List.length_append]; omega), Option.bind_eq_bind, Option.bind_some]
  dsimp only
  rw [if_neg (fun both => both.2 (strict both.1))]
  exact ⟨_, rfl, rfl⟩

end Documents

section Fast

variable (w : FastWriter) {v : TextValue D} {elements : List (TextValue D)} {members : List (CString × TextValue D)} {name : CString}

theorem fast_elements (k : Nat) (v : TextValue D) (elements : List (TextValue D))
    (inside : ∀ u ∈ v :: elements, Reads u.canonical (w.writeValue u)) :
    ReadsElements (canonicalElements (v :: elements)) (w.writeValue v ++ w.writeElements (k + 1) elements ++ literal "]") := by
  induction elements generalizing v k with
  | nil => exact reads_last (inside v List.mem_cons_self) blank_nil
  | cons u elements ih =>
    have others := ih (k + 1) u fun x mem => inside x (List.mem_cons_of_mem v mem)
    have text := reads_more (inside v List.mem_cons_self) blank_nil others
    rw [FastWriter.writeElements, if_pos (Nat.succ_pos k)]
    simpa [List.append_assoc, canonicalElements] using text

theorem fast_members (k : Nat) (name : CString) (v : TextValue D) (members : List (CString × TextValue D))
    (sorted : ((name, v) :: members).Pairwise fun a b => a.1 < b.1)
    (inside : ∀ m ∈ (name, v) :: members, Reads m.2.canonical (w.writeValue m.2)) :
    ReadsMembers (canonicalMembers ((name, v) :: members)) (valueToQuotedString name ++
      literal (if w.yamlCompatiblityEnabled_ then ": " else ":") ++ w.writeValue v ++ w.writeMembers (k + 1) members ++ literal "\x7d") := by
  have colon : ∃ gap, Blank gap ∧ literal (if w.yamlCompatiblityEnabled_ then ": " else ":") = literal ":" ++ gap := by
    split_ifs
    · exact ⟨[32], fun c mem => by rw [List.mem_singleton.1 mem]; rfl, rfl⟩
    · exact ⟨[], blank_nil, rfl⟩
  obtain ⟨gap, blank, colon⟩ := colon
  induction members generalizing name v k with
  | nil =>
    have value := (inside _ List.mem_cons_self).spaces blank
    have text := reads_lastMember name blank_nil blank_nil value blank_nil
    rw [colon]
    simpa [List.append_assoc, FastWriter.writeMembers, canonicalMembers] using text
  | cons m members ih =>
    obtain ⟨name', u⟩ := m
    obtain ⟨first, sorted⟩ := List.pairwise_cons.1 sorted
    have value := (inside _ List.mem_cons_self).spaces blank
    have others := ih (k + 1) name' u sorted fun x mem => inside x (List.mem_cons_of_mem _ mem)
    have text := reads_moreMembers name blank_nil blank_nil value blank_nil others (before_canonicalMembers first)
    rw [FastWriter.writeMembers, if_pos (Nat.succ_pos k), colon]
    simpa [List.append_assoc, canonicalMembers, colon] using text

/-- The fast writer, unless it drops the null values. -/
theorem fast_reads (readable : v.Readable) (nulls : w.dropNullPlaceholders_ = false) : Reads v.canonical (w.writeValue v) := by
  induction readable with
  | null =>
    rw [FastWriter.writeValue, nulls]
    exact reads_null
  | int n => exact reads_int n
  | uint n => exact reads_uint n
  | real written => exact reads_real written
  | string s => exact reads_string s
  | boolean b => exact reads_boolean b
  | @array elements inside ih =>
    cases elements with
    | nil => exact reads_array_nil
    | cons v elements =>
      have text := reads_array (fast_elements w 0 v elements ih)
      rw [FastWriter.writeValue, FastWriter.writeElements, if_neg (Nat.lt_irrefl 0), TextValue.canonical]
      simpa [List.append_assoc] using text
  | @object members sorted inside ih =>
    cases members with
    | nil => exact reads_object_nil
    | cons m members =>
      obtain ⟨name, v⟩ := m
      have text := reads_object (fast_members w 0 name v members sorted ih)
      rw [FastWriter.writeValue, FastWriter.writeMembers, if_neg (Nat.lt_irrefl 0), TextValue.canonical]
      simpa [List.append_assoc] using text

end Fast

section Styled

variable {w : StyledWriter} {v : TextValue D} {elements : List (TextValue D)} {members : List (CString × TextValue D)}
  {texts : List (List UInt8)} {name : CString}

open StyledWriter

/-- What the styled writer does with a value: its text goes to the document, or to `childValues_` while that is filled. -/
structure WritesValue (v : TextValue D) : Prop where
  line : ∀ w : StyledWriter, w.addChildValues_ = false → Blank w.indentString_ → ∃ text, Reads v.canonical text ∧
    ∃ childValues, StyledWriter.writeValue v w = { w with document_ := w.document_ ++ text, childValues_ := childValues }
  child : hasChildren v = false → ∀ w : StyledWriter, w.addChildValues_ = true → ∃ text, Reads v.canonical text ∧
    StyledWriter.writeValue v w = { w with childValues_ := w.childValues_ ++ [text] }

/-- A value that is pushed. -/
theorem writes_push {text : List UInt8} (reads : Reads v.canonical text)
    (push : ∀ w, StyledWriter.writeValue v w = w.pushValue text) : WritesValue v where
  line w whole _ := by
    refine ⟨text, reads, w.childValues_, ?_⟩
    rw [push, pushValue, if_neg (by rw [whole]; decide)]
    rfl
  child _ w adds := by
    refine ⟨text, reads, ?_⟩
    rw [push, pushValue, if_pos adds]

theorem writeIndent_blank (blank : Blank w.indentString_) : ∃ sp, Blank sp ∧ w.writeIndent = w.append sp := by
  have line : Blank [10] := fun c mem => by rw [List.mem_singleton.1 mem]; rfl
  rw [writeIndent]
  cases w.document_.getLast? with
  | none => exact ⟨_, blank, rfl⟩
  | some last =>
    dsimp only
    split_ifs
    · exact ⟨[], blank_nil, by rw [append, List.append_nil]⟩
    · exact ⟨[10] ++ w.indentString_, line.append blank, by simp [append]⟩
    · exact ⟨_, blank, rfl⟩

theorem indent_blank (blank : Blank w.indentString_) : Blank w.indent.indentString_ := by
  apply Blank.append blank
  intro c mem
  rw [List.eq_of_mem_replicate mem]
  rfl

theorem unindent_indent {document_ : List UInt8} {childValues_ : List (List UInt8)} :
    unindent { w.indent with document_ := document_, childValues_ := childValues_ } =
      { w with document_ := document_, childValues_ := childValues_ } := by
  simp [unindent, indent]

/-- The elements that are written to `childValues_`. -/
theorem writeChildren_texts (flat : ∀ v ∈ elements, hasChildren v = false) (inside : ∀ v ∈ elements, WritesValue v) (index lineLength : Nat)
    (adds : w.addChildValues_ = true) : ∃ n texts, List.Forall₂ (fun v text => Reads v.canonical text) elements texts ∧
      writeChildren elements index lineLength w = (n, { w with childValues_ := w.childValues_ ++ texts }) := by
  induction elements generalizing w index lineLength with
  | nil => exact ⟨lineLength, [], .nil, by rw [List.append_nil]; rfl⟩
  | cons v elements ih =>
    obtain ⟨text, reads, written⟩ := (inside v List.mem_cons_self).child (flat v List.mem_cons_self) w adds
    rw [writeChildren, written]
    obtain ⟨n, texts, others, rest⟩ := ih (fun u mem => flat u (List.mem_cons_of_mem v mem))
      (fun u mem => inside u (List.mem_cons_of_mem v mem)) (w := { w with childValues_ := w.childValues_ ++ [text] }) (index + 1)
      (lineLength + ((w.childValues_ ++ [text]).getD index []).length) adds
    refine ⟨n, text :: texts, .cons reads others, ?_⟩
    dsimp only at rest ⊢
    rw [rest, List.append_assoc, List.singleton_append]

/-- Either `childValues_` has the texts of all elements, or it is empty and the array takes more than a line. -/
theorem isMultineArray_texts (inside : ∀ v ∈ elements, WritesValue v) (whole : w.addChildValues_ = false) : ∃ multi texts,
    w.isMultineArray elements (fun lineLength w => writeChildren elements 0 lineLength w) = (multi, { w with childValues_ := texts }) ∧
      (multi = true ∧ texts = [] ∨ List.Forall₂ (fun v text => Reads v.canonical text) elements texts) := by
  rw [isMultineArray]
  dsimp only
  split_ifs with long
  · exact ⟨true, [], rfl, .inl ⟨rfl, rfl⟩⟩
  · have flat : ∀ v ∈ elements, hasChildren v = false := by
      intro v mem
      rw [not_or, Bool.not_eq_true, List.any_eq_false] at long
      exact Bool.eq_false_iff.2 (long.2 v mem)
    obtain ⟨n, texts, reads, written⟩ := writeChildren_texts (w := { w with childValues_ := [], addChildValues_ := true }) flat inside 0
      (4 + (elements.length - 1) * 2) rfl
    refine ⟨decide (rightMargin_ ≤ n), texts, ?_, .inr reads⟩
    rw [written]
    simp [← whole]

/-- The elements on a single line. -/
theorem writeLine_reads (k : Nat) {text : List UInt8} (reads : List.Forall₂ (fun v text => Reads v.canonical text) (v :: elements)
    (text :: texts)) : ReadsElements (canonicalElements (v :: elements)) (text ++ writeLine (k + 1) texts ++ literal " ]") := by
  have blank : Blank [32] := fun c mem => by rw [List.mem_singleton.1 mem]; rfl
  obtain ⟨here, others⟩ := List.forall₂_cons.1 reads
  induction others generalizing v text k with
  | nil =>
    rw [writeLine, List.append_nil]
    have line := reads_last here blank
    rw [List.append_assoc] at line
    exact line
  | @cons u text' elements texts next rest ih =>
    have behind := (ih (k + 1) (.cons next rest) next).spaces blank
    have line := reads_more here blank_nil behind
    have comma : literal ", " = literal "," ++ [32] := rfl
    rw [writeLine, if_pos (Nat.succ_pos k), comma]
    simpa [List.append_assoc, canonicalElements] using line

/-- A line of an array. -/
theorem writeElement_reads (inside : WritesValue v) (hasChildValue : Bool) (index : Nat) (whole : w.addChildValues_ = false)
    (blank : Blank w.indentString_)
    (child : hasChildValue = true → ∃ text texts, Reads v.canonical text ∧ w.childValues_.drop index = text :: texts) :
    ∃ text, Reads v.canonical text ∧ ∃ childValues, (hasChildValue = true → childValues = w.childValues_) ∧
      (if hasChildValue = true then w.writeWithIndent (w.childValues_.getD index []) else StyledWriter.writeValue v w.writeIndent) =
        { w with document_ := w.document_ ++ text, childValues_ := childValues } := by
  obtain ⟨sp, blank', indented⟩ := writeIndent_blank blank
  cases hasChildValue with
  | true =>
    obtain ⟨text, texts, reads, same⟩ := child rfl
    have here : w.childValues_.getD index [] = text := by
      rw [List.getD_eq_getElem?_getD, ← List.head?_drop, same]
      rfl
    refine ⟨sp ++ text, reads.spaces blank', w.childValues_, fun _ => rfl, ?_⟩
    rw [if_pos rfl, writeWithIndent, indented, here]
    simp [append, List.append_assoc]
  | false =>
    obtain ⟨text, reads, childValues, written⟩ := inside.line (w.append sp) whole blank
    refine ⟨sp ++ text, reads.spaces blank', childValues, fun no => absurd no Bool.false_ne_true, ?_⟩
    rw [if_neg Bool.false_ne_true, indented, written]
    simp [append, List.append_assoc]

/-- The lines of an array, from some element on. -/
theorem writeElements_reads (v : TextValue D) (elements : List (TextValue D)) (inside : ∀ u ∈ v :: elements, WritesValue u)
    (hasChildValue : Bool) (index : Nat) (whole : w.addChildValues_ = false) (blank : Blank w.indentString_)
    (children : hasChildValue = true →
      List.Forall₂ (fun v text => Reads v.canonical text) (v :: elements) (w.childValues_.drop index)) :
    ∃ text, (∀ sp, Blank sp → ReadsElements (canonicalElements (v :: elements)) (text ++ sp ++ literal "]")) ∧ ∃ childValues,
      StyledWriter.writeElements (v :: elements) hasChildValue index w =
        { w with document_ := w.document_ ++ text, childValues_ := childValues } := by
  induction elements generalizing v w index with
  | nil =>
    obtain ⟨text, reads, childValues, -, written⟩ := writeElement_reads (inside v List.mem_cons_self) hasChildValue index whole blank
      (fun has => by
        obtain ⟨text, texts, here, -, same⟩ := List.forall₂_cons_left_iff.1 (children has)
        exact ⟨text, texts, here, same⟩)
    refine ⟨text, fun sp blank => reads_last reads blank, childValues, ?_⟩
    rw [StyledWriter.writeElements]
    exact written
  | cons u elements ih =>
    obtain ⟨text, reads, childValues, same, written⟩ := writeElement_reads (inside v List.mem_cons_self) hasChildValue index whole blank
      (fun has => by
        obtain ⟨text, texts, here, -, same⟩ := List.forall₂_cons_left_iff.1 (children has)
        exact ⟨text, texts, here, same⟩)
    obtain ⟨text', others, childValues', written'⟩ := ih
      (w := { w with document_ := w.document_ ++ text ++ literal ",", childValues_ := childValues }) u
      (fun x mem => inside x (List.mem_cons_of_mem v mem)) (index + 1) whole blank (fun has => by
        obtain ⟨text, texts, -, others, texts'⟩ := List.forall₂_cons_left_iff.1 (children has)
        have next : w.childValues_.drop (index + 1) = texts := by rw [← List.tail_drop, texts', List.tail_cons]
        rw [same has, next]
        exact others)
    refine ⟨text ++ literal "," ++ text', fun sp blank => ?_, childValues', ?_⟩
    · have line := reads_more reads blank_nil (others sp blank)
      simpa [List.append_assoc, canonicalElements] using line
    · rw [StyledWriter.writeElements]
      simp only [written, append, written']
      simp [List.append_assoc]

theorem writeWithIndent_blank (blank : Blank w.indentString_) (value : List UInt8) :
    ∃ sp, Blank sp ∧ w.writeWithIndent value = { w with document_ := w.document_ ++ (sp ++ value) } := by
  obtain ⟨sp, blank', indented⟩ := writeIndent_blank blank
  refine ⟨sp, blank', ?_⟩
  rw [writeWithIndent, indented]
  simp [append, List.append_assoc]

/-- A line of an object. -/
theorem writeMember_reads (inside : WritesValue v) (name : CString) (whole : w.addChildValues_ = false) (blank : Blank w.indentString_) :
    ∃ sp text, Blank sp ∧ Reads v.canonical text ∧ ∃ childValues,
      StyledWriter.writeValue v ((w.writeWithIndent (valueToQuotedString name)).append (literal " : ")) =
        { w with document_ := w.document_ ++ (sp ++ valueToQuotedString name ++ [32] ++ literal ":" ++ ([32] ++ text)),
                 childValues_ := childValues } := by
  obtain ⟨sp, blank', indented⟩ := writeWithIndent_blank blank (valueToQuotedString name)
  obtain ⟨text, reads, childValues, written⟩ := inside.line ((w.writeWithIndent (valueToQuotedString name)).append (literal " : "))
    (by rw [indented]; exact whole) (by rw [indented]; exact blank)
  have colon : literal " : " = [32] ++ literal ":" ++ [32] := rfl
  refine ⟨sp, text, blank', reads, childValues, ?_⟩
  rw [written, indented, colon]
  simp [append, List.append_assoc]

/-- The lines of an object, from some member on. -/
theorem writeMembers_reads (name : CString) (v : TextValue D) (members : List (CString × TextValue D))
    (sorted : ((name, v) :: members).Pairwise fun a b => a.1 < b.1) (inside : ∀ m ∈ (name, v) :: members, WritesValue m.2)
    (whole : w.addChildValues_ = false) (blank : Blank w.indentString_) :
    ∃ text, (∀ sp, Blank sp → ReadsMembers (canonicalMembers ((name, v) :: members)) (text ++ sp ++ literal "\x7d")) ∧ ∃ childValues,
      StyledWriter.writeMembers ((name, v) :: members) w =
        { w with document_ := w.document_ ++ text, childValues_ := childValues } := by
  have space : Blank [32] := fun c mem => by rw [List.mem_singleton.1 mem]; rfl
  induction members generalizing name v w with
  | nil =>
    obtain ⟨sp, text, blank', reads, childValues, written⟩ := writeMember_reads (inside _ List.mem_cons_self) name whole blank
    refine ⟨_, fun behind blankBehind => ?_, childValues, written⟩
    exact reads_lastMember name blank' space (reads.spaces space) blankBehind
  | cons m members ih =>
    obtain ⟨name', u⟩ := m
    obtain ⟨first, sorted⟩ := List.pairwise_cons.1 sorted
    obtain ⟨sp, text, blank', reads, childValues, written⟩ := writeMember_reads (inside _ List.mem_cons_self) name whole blank
    obtain ⟨text', others, childValues', written'⟩ := ih (w := append
      { w with document_ := w.document_ ++ (sp ++ valueToQuotedString name ++ [32] ++ literal ":" ++ ([32] ++ text)),
               childValues_ := childValues } (literal ","))
      name' u sorted (fun x mem => inside x (List.mem_cons_of_mem _ mem)) whole blank
    refine ⟨sp ++ valueToQuotedString name ++ [32] ++ literal ":" ++ ([32] ++ text) ++ literal "," ++ text', fun behind blankBehind => ?_,
      childValues', ?_⟩
    · have line := reads_moreMembers name blank' space (reads.spaces space) blank_nil (others behind blankBehind)
        (before_canonicalMembers first)
      simpa [List.append_assoc, canonicalMembers] using line
    · rw [StyledWriter.writeMembers, written, if_neg (by simp), written']
      simp [append, List.append_assoc]

/-- The brackets of an array or an object around its lines. -/
theorem writes_brackets (w : StyledWriter) (begin' end_ : List UInt8) (lines : StyledWriter → StyledWriter) (blank : Blank w.indentString_)
    {P : List UInt8 → Prop}
    (inside : ∀ w' : StyledWriter, w'.addChildValues_ = w.addChildValues_ → Blank w'.indentString_ → w'.childValues_ = w.childValues_ →
      ∃ text, (∀ sp, Blank sp → P (text ++ sp ++ end_)) ∧
        ∃ childValues, lines w' = { w' with document_ := w'.document_ ++ text, childValues_ := childValues }) :
    ∃ sp text, Blank sp ∧ P text ∧ ∃ childValues, (lines (w.writeWithIndent begin').indent).unindent.writeWithIndent end_ =
      { w with document_ := w.document_ ++ (sp ++ begin' ++ text), childValues_ := childValues } := by
  obtain ⟨sp, blank', opened⟩ := writeWithIndent_blank blank begin'
  obtain ⟨text, reads, childValues, written⟩ := inside (w.writeWithIndent begin').indent (by rw [opened]; rfl)
    (by rw [opened]; exact indent_blank blank) (by rw [opened]; rfl)
  rw [written, unindent_indent, opened]
  obtain ⟨sp', blank'', closed⟩ := writeWithIndent_blank
    (w := { w with document_ := w.document_ ++ (sp ++ begin') ++ text, childValues_ := childValues }) blank end_
  refine ⟨sp, text ++ sp' ++ end_, blank', reads sp' blank'', childValues, ?_⟩
  exact closed.trans (by simp [List.append_assoc])

theorem styled_array (inside : ∀ v ∈ elements, WritesValue v) : WritesValue (.array elements) := by
  cases elements with
  | nil => exact writes_push reads_array_nil fun w => rfl
  | cons v elements =>
    refine ⟨fun w whole blank => ?_, fun flat => by cases flat⟩
    obtain ⟨multi, texts, tried, cases'⟩ := isMultineArray_texts inside whole
    rw [StyledWriter.writeValue, if_neg (by simp), tried]
    dsimp only
    cases multi with
    | false =>
      obtain ⟨no, -⟩ | reads := cases'
      · cases no
      obtain ⟨text, rest, -, -, rfl⟩ := List.forall₂_cons_left_iff.1 reads
      have space : Blank [32] := fun c mem => by rw [List.mem_singleton.1 mem]; rfl
      have begin' : literal "[ " = literal "[" ++ [32] := rfl
      refine ⟨_, reads_array ((writeLine_reads 0 reads).spaces space), text :: rest, ?_⟩
      rw [if_neg (by decide), writeLine, if_neg (Nat.lt_irrefl 0), begin']
      simp [append, List.append_assoc]
    | true =>
      have children : (!texts.isEmpty) = true → List.Forall₂ (fun v text => Reads v.canonical text) (v :: elements) texts := by
        intro some'
        obtain ⟨-, rfl⟩ | reads := cases'
        · cases some'
        · exact reads
      obtain ⟨sp, text, blank', read, childValues, written⟩ := writes_brackets { w with childValues_ := texts } (literal "[")
        (literal "]") (fun w => StyledWriter.writeElements (v :: elements) (!w.childValues_.isEmpty) 0 w) blank
        (fun w' same blank' kept => writeElements_reads v elements inside _ 0 (same.trans whole) blank' (by rw [kept]; exact children))
      refine ⟨sp ++ (literal "[" ++ text), (reads_array read).spaces blank', childValues, ?_⟩
      rw [if_pos rfl, ← List.append_assoc sp]
      exact written

theorem styled_object (sorted : members.Pairwise fun a b => a.1 < b.1) (inside : ∀ m ∈ members, WritesValue m.2) :
    WritesValue (.object members) := by
  cases members with
  | nil => exact writes_push reads_object_nil fun w => rfl
  | cons m members =>
    obtain ⟨name, v⟩ := m
    refine ⟨fun w whole blank => ?_, fun flat => by cases flat⟩
    obtain ⟨sp, text, blank', read, childValues, written⟩ := writes_brackets w (literal "\x7b") (literal "\x7d")
      (fun w => StyledWriter.writeMembers ((name, v) :: members) w) blank
      (fun w' same blank' _ => writeMembers_reads name v members sorted inside (same.trans whole) blank')
    refine ⟨sp ++ (literal "\x7b" ++ text), (reads_object read).spaces blank', childValues, ?_⟩
    rw [StyledWriter.writeValue, if_neg (by simp), ← List.append_assoc sp]
    exact written

/-- The styled writer. -/
theorem styled_writes (readable : v.Readable) : WritesValue v := by
  induction readable with
  | null => exact writes_push reads_null fun w => rfl
  | int n => exact writes_push (reads_int n) fun w => rfl
  | uint n => exact writes_push (reads_uint n) fun w => rfl
  | real written => exact writes_push (reads_real written) fun w => rfl
  | string s => exact writes_push (reads_string s) fun w => rfl
  | boolean b => exact writes_push (reads_boolean b) fun w => rfl
  | array _ ih => exact styled_array ih
  | object sorted _ ih => exact styled_object sorted ih

end Styled

/-- A `double` that is one half. -/
def half : Doubles := ⟨Unit, fun text => if text = literal "0.5" then some () else none, fun _ => literal "0.5"⟩

/-- Null, a half and a string with a line break, and a number beyond `int` in an object. -/
def sample : TextValue half :=
  .array [.null, .real (), .string (CString.of (literal "a\n")), .object [(CString.of (literal "n"), .int (Int64.ofInt 3000000000))]]

theorem sample_readable : sample.Readable := by
  have written : half.Exact () := ⟨⟨48, literal ".5", rfl, .inl rfl, List.all_eq_true.1 rfl⟩, rfl, rfl⟩
  refine .array fun v mem => ?_
  simp only [List.mem_cons, List.not_mem_nil, or_false] at mem
  rcases mem with rfl | rfl | rfl | rfl
  · exact .null
  · exact .real written
  · exact .string _
  · refine .object (List.pairwise_singleton _ _) fun m mem => ?_
    rw [List.mem_singleton.1 mem]
    exact .int _

section Documents

variable {v : TextValue D} {features_ : Features}

/-- **What the fast writer writes is read back**, with and without the blanks of YAML, unless it drops the null values; it is the same
value if it had been read before. -/
theorem parse_fast (w : FastWriter) (readable : v.Readable) (nulls : w.dropNullPlaceholders_ = false)
    (strict : features_.strictRoot_ = true → v.isContainer = true) (root : TextValue D) :
    (∃ r, parse features_ (w.writeValue v) root = some (true, v.canonical, r) ∧ r.errors_ = []) ∧ (v.Normal → v.canonical = v) := by
  have strict' : features_.strictRoot_ = true → v.canonical.isContainer = true := by
    rw [canonical_isContainer]
    exact strict
  have parsed := parse_reads (fast_reads w readable nulls) blank_nil strict' root
  rw [List.append_nil] at parsed
  exact ⟨parsed, TextValue.Normal.canonical⟩

theorem parse_fast_sample : ∃ r, parse ⟨false, true⟩ (FastWriter.writeValue ⟨true, false⟩ sample) .null = some (true, sample.canonical, r) ∧
    r.errors_ = [] :=
  (parse_fast ⟨true, false⟩ sample_readable rfl (fun _ => rfl) .null).1

/-- **What the styled writer writes is read back**, on however many lines it puts the arrays; it is the same value if it had been read
before. -/
theorem parse_styled (readable : v.Readable) (strict : features_.strictRoot_ = true → v.isContainer = true) (root : TextValue D) :
    (∃ r, parse features_ (StyledWriter.write v) root = some (true, v.canonical, r) ∧ r.errors_ = []) ∧
      (v.Normal → v.canonical = v) := by
  have line : Blank (literal "\n") := fun c mem => by rw [List.mem_singleton.1 mem]; rfl
  obtain ⟨text, reads, childValues, written⟩ := (styled_writes readable).line ⟨[], [], [], false⟩ rfl
    fun c mem => absurd mem List.not_mem_nil
  refine ⟨?_, TextValue.Normal.canonical⟩
  rw [StyledWriter.write, written]
  exact parse_reads reads line (fun is => by rw [canonical_isContainer]; exact strict is) root

theorem parse_styled_sample : ∃ r, parse ⟨true, true⟩ (StyledWriter.write sample) .null = some (true, sample.canonical, r) ∧
    r.errors_ = [] :=
  (parse_styled sample_readable (fun _ => rfl) .null).1

end Documents

end GameServer.Json

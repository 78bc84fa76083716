import GameServer.Lib.Trie

/-!
# The keyword filter

`DFANode` is a trie without a mark at the end of a word: a search stops at the first node without
children and never goes back. `loadFile` skips a line that contains a loaded word and `addNode`
cuts what is below the end of the word it adds, so a search for the words of the trie finds
exactly the texts that contain a line (`hasKeyWord_loadFile`).
-/

namespace GameServer.Text

open GameServer.Lib

abbrev keytype := UInt16

/-- `m_Key` is never read. -/
abbrev DFANode := Trie keytype

def DFANode.getChildNodeCount (node : DFANode) : Nat := node.children.length

/-- What `getKeyPos` returns: `m_nStart` of the root, and the static `m_nLen`. -/
structure KeyPos where
  m_nStart : Nat
  m_nLen : Nat
deriving DecidableEq, Repr

/-- The loop of `hasKeyWord`, from position `currentPos` on. -/
def DFANode.hasKeyWord (isreturn : Bool) (node : DFANode) : List keytype → (currentPos : Nat) → KeyPos → Bool × KeyPos
  | [], _, pos => (false, pos)
  | p :: rest, currentPos, pos =>
    let pos := { pos with m_nLen := pos.m_nLen + 1 }
    match node.get p with
    | none =>
      if isreturn then hasKeyWord true node rest (currentPos + 1) { pos with m_nLen := 0 } else (false, pos)
    | some pnode =>
      if getChildNodeCount pnode = 0 then
        (true, if isreturn then { pos with m_nStart := currentPos } else pos)
      else if rest = [] then (false, pos)
      else
        match hasKeyWord false pnode rest 0 pos with
        | (true, pos) => (true, if isreturn then { pos with m_nStart := currentPos } else pos)
        | (false, pos) =>
          if isreturn then hasKeyWord true node rest (currentPos + 1) { pos with m_nLen := 0 } else (false, pos)

/-- `addNode` of a whole word. The last node of the word loses its children. -/
def DFANode.addNode (node : DFANode) : List keytype → DFANode
  | [] => node
  | key :: rest =>
    match node.get key with
    | none => node.set key (addNode .leaf rest)
    | some pNode => node.set key (addNode (if rest = [] then .leaf else pNode) rest)

/-- The root and what the searches leave behind. -/
structure Table where
  root : DFANode
  pos : KeyPos

/-- `new DFANode(0)`. -/
def Table.init : Table := ⟨.leaf, 0, 0⟩

/-- `hasKeyWord` of a text, and `isFileterWord` of a wide one. -/
def Table.hasKeyWord (table : Table) (text : List keytype) : Bool × Table :=
  let (found, pos) := DFANode.hasKeyWord true table.root text 0 { table.pos with m_nLen := 0 }
  (found, { table with pos := pos })

def Table.addNode (table : Table) (text : List keytype) : Table :=
  { table with root := DFANode.addNode table.root text }

def Table.getKeyPos (table : Table) : KeyPos × Table := (table.pos, { table with pos := ⟨0, 0⟩ })

/-- The characters not read yet, and the two flags the loop looks at. -/
structure ifstream where
  rest : List UInt8
  eof : Bool
  fail : Bool

def newline : UInt8 := 10

/-- The characters up to the end of the line or of the file, or until `n` are stored. -/
def scanLine : Nat → List UInt8 → List UInt8 × ifstream
  | _, [] => ([], ⟨[], true, false⟩)
  | n, c :: cs =>
    if c = newline then ([], ⟨cs, false, false⟩)
    else
      match n with
      | 0 => ([], ⟨c :: cs, false, true⟩)
      | n + 1 => (c :: (scanLine n cs).1, (scanLine n cs).2)

/-- `getline(line, n)`, for a positive `n`. It fails too when it extracts nothing. -/
def getline (n : Nat) (file : ifstream) : List UInt8 × ifstream :=
  let (line, next) := scanLine (n - 1) file.rest
  (line, { next with fail := next.fail || (line.isEmpty && next.eof) })

/-- The `std::string` of the characters of an array. -/
def c_str (line : List UInt8) : List UInt8 := line.takeWhile (· ≠ 0)

section Load

variable (decode : List UInt8 → List keytype)

/-- `Helper::UTF8ToUnicode`, over what the system decodes. -/
def UTF8ToUnicode (utf8 : List UInt8) : List keytype := if utf8 = [] then [] else decode utf8

/-- One line of the file. -/
def Table.loadLine (table : Table) (line : List UInt8) : Table :=
  let wline := UTF8ToUnicode decode (c_str line)
  let (found, table) := table.hasKeyWord wline
  if found then table else table.addNode wline

/-- The loop of `loadFile`, for so many turns at most. -/
def Table.loadLoop : Nat → ifstream → Table → Table
  | 0, _, table => table
  | turns + 1, file, table =>
    if file.eof = false ∧ file.fail = false then
      let (line, file) := getline 1024 file
      if file.fail then loadLoop turns file table else loadLoop turns file (table.loadLine decode line)
    else table

/-- `loadFile` of a file with this content. -/
def Table.loadFile (table : Table) (content : List UInt8) : Table :=
  table.loadLoop decode (content.length + 1) ⟨content, false, false⟩

end Load

section Words

variable {node : DFANode} {w v s : List keytype} {n m : Nat} {pos : KeyPos}

theorem getChildNodeCount_eq_zero : DFANode.getChildNodeCount node = 0 ↔ node.children = [] := List.length_eq_zero_iff

/-- One character of a search. -/
theorem exists_word_cons {p : keytype} {rest : List keytype} :
    (∃ w, w <+: p :: rest ∧ node.Word w) ↔
      ∃ pnode, node.get p = some pnode ∧ (pnode.children = [] ∨ ∃ w, w <+: rest ∧ pnode.Word w) := by
  constructor
  · rintro ⟨w, start, word⟩
    cases w with
    | nil => exact absurd word Trie.not_word_nil
    | cons k ks =>
      obtain ⟨rfl, below⟩ := List.cons_prefix_cons.1 start
      obtain ⟨pnode, got, ⟨-, leaf⟩ | word⟩ := word
      · exact ⟨pnode, got, .inl leaf⟩
      · exact ⟨pnode, got, .inr ⟨ks, below, word⟩⟩
  · rintro ⟨pnode, got, leaf | ⟨w, start, word⟩⟩
    · exact ⟨[p], by simp, (Trie.word_cons got).2 (.inl ⟨rfl, leaf⟩)⟩
    · exact ⟨p :: w, List.cons_prefix_cons.2 ⟨rfl, start⟩, (Trie.word_cons got).2 (.inr word)⟩

/-- A search inside a start position finds a word there, if there is one. -/
theorem hasKeyWord_inside : (DFANode.hasKeyWord false node s n pos).1 = true ↔ ∃ w, w <+: s ∧ node.Word w := by
  induction s generalizing node n pos with
  | nil =>
    constructor
    · intro found
      cases found
    · rintro ⟨w, start, word⟩
      obtain rfl := List.prefix_nil.1 start
      exact absurd word Trie.not_word_nil
  | cons p rest ih =>
    rw [exists_word_cons, DFANode.hasKeyWord]
    cases got : node.get p with
    | none => simp
    | some pnode =>
      simp only [getChildNodeCount_eq_zero, Option.some.injEq, exists_eq_left', Bool.false_eq_true, if_false]
      split_ifs with leaf last
      · simp [leaf]
      · subst last
        simp [leaf]
      · have inside := @ih pnode 0 { pos with m_nLen := pos.m_nLen + 1 }
        split <;> rename_i result <;> rw [result] at inside <;> simp [leaf, ← inside]

/-- A search finds a word anywhere in the text. -/
theorem hasKeyWord_text : (DFANode.hasKeyWord true node s n pos).1 = true ↔ ∃ w, w <:+: s ∧ node.Word w := by
  induction s generalizing n pos with
  | nil =>
    constructor
    · intro found
      cases found
    · rintro ⟨w, inside, word⟩
      obtain rfl := List.infix_nil.1 inside
      exact absurd word Trie.not_word_nil
  | cons p rest ih =>
    have inside_or : (∃ w, w <:+: p :: rest ∧ node.Word w) ↔
        (∃ w, w <+: p :: rest ∧ node.Word w) ∨ ∃ w, w <:+: rest ∧ node.Word w := by
      simp only [List.infix_cons_iff, or_and_right, exists_or]
    rw [inside_or, exists_word_cons, DFANode.hasKeyWord]
    cases got : node.get p with
    | none => simp [ih]
    | some pnode =>
      simp only [getChildNodeCount_eq_zero, Option.some.injEq, exists_eq_left']
      split_ifs with leaf last
      · simp [leaf]
      · subst last
        simp [leaf]
      · have inside := @hasKeyWord_inside pnode rest 0 { pos with m_nLen := pos.m_nLen + 1 }
        split <;> rename_i result <;> rw [result] at inside
        · simp [← inside]
        · simp only [leaf, false_or, ← inside, Bool.false_eq_true]
          exact ih

/-- The length counts the characters of the word. -/
theorem length_inside (found : (DFANode.hasKeyWord false node s n pos).1 = true) :
    ∃ w, w <+: s ∧ node.Word w ∧ (DFANode.hasKeyWord false node s n pos).2.m_nLen = pos.m_nLen + w.length := by
  induction s generalizing node n pos with
  | nil => cases found
  | cons p rest ih =>
    rw [DFANode.hasKeyWord] at found ⊢
    cases got : node.get p with
    | none => simp [got] at found
    | some pnode =>
      simp only [got, getChildNodeCount_eq_zero, Bool.false_eq_true, if_false] at found ⊢
      split_ifs at found ⊢ with leaf last
      · exact ⟨[p], by simp, (Trie.word_cons got).2 (.inl ⟨rfl, leaf⟩), rfl⟩
      · cases hit : (DFANode.hasKeyWord false pnode rest 0 { pos with m_nLen := pos.m_nLen + 1 }).1 with
        | false => split at found <;> simp_all
        | true =>
          obtain ⟨w, start, word, length⟩ := ih hit
          refine ⟨p :: w, List.cons_prefix_cons.2 ⟨rfl, start⟩, (Trie.word_cons got).2 (.inr word), ?_⟩
          split <;> rename_i result <;> rw [result] at length
          · rw [length, List.length_cons, Nat.add_assoc, Nat.add_comm 1]
          · simp [result] at hit

/-- What a search leaves behind is the first place where a word starts, and the length of the word. -/
theorem pos_text (fresh : pos.m_nLen = 0) (found : (DFANode.hasKeyWord true node s n pos).1 = true) :
    ∃ i w, w <+: s.drop i ∧ node.Word w ∧ (DFANode.hasKeyWord true node s n pos).2 = ⟨n + i, w.length⟩ ∧
      ∀ j, j < i → ∀ v, v <+: s.drop j → ¬ node.Word v := by
  induction s generalizing n pos with
  | nil => cases found
  | cons p rest ih =>
    rw [DFANode.hasKeyWord] at found ⊢
    have later : ∀ pos : KeyPos, pos.m_nLen = 0 → (DFANode.hasKeyWord true node rest (n + 1) pos).1 = true →
        (∀ v, v <+: p :: rest → ¬ node.Word v) → ∃ i w, w <+: (p :: rest).drop i ∧ node.Word w ∧
          (DFANode.hasKeyWord true node rest (n + 1) pos).2 = ⟨n + i, w.length⟩ ∧
            ∀ j, j < i → ∀ v, v <+: (p :: rest).drop j → ¬ node.Word v := by
      intro pos fresh found here
      obtain ⟨i, w, start, word, same, first⟩ := ih fresh found
      refine ⟨i + 1, w, start, word, by rw [same, Nat.add_assoc, Nat.add_comm 1], fun j less => ?_⟩
      cases j with
      | zero => exact here
      | succ j => exact first j (Nat.lt_of_succ_lt_succ less)
    have nothing : ∀ j : Nat, j < 0 → ∀ v, v <+: (p :: rest).drop j → ¬ node.Word v := fun j less => absurd less (Nat.not_lt_zero j)
    cases got : node.get p with
    | none =>
      simp only [got, if_true] at found ⊢
      refine later _ rfl found fun v start word => ?_
      obtain ⟨pnode, got', -⟩ := exists_word_cons.1 ⟨v, start, word⟩
      rw [got] at got'
      cases got'
    | some pnode =>
      simp only [got, getChildNodeCount_eq_zero, if_true] at found ⊢
      split_ifs at found ⊢ with leaf last
      · exact ⟨0, [p], by simp, (Trie.word_cons got).2 (.inl ⟨rfl, leaf⟩), by simp [fresh], nothing⟩
      · have inside := @hasKeyWord_inside pnode rest 0 { pos with m_nLen := pos.m_nLen + 1 }
        cases hit : DFANode.hasKeyWord false pnode rest 0 { pos with m_nLen := pos.m_nLen + 1 } with
        | mk b pos' =>
          rw [hit] at found inside
          cases b with
          | false =>
            refine later _ rfl found fun v start word => ?_
            obtain ⟨pnode', got', below⟩ := exists_word_cons.1 ⟨v, start, word⟩
            obtain rfl := Option.some.inj (got.symm.trans got')
            exact Bool.false_ne_true (inside.2 (below.resolve_left leaf))
          | true =>
            obtain ⟨w, start, word, length⟩ := length_inside (congrArg Prod.fst hit)
            rw [hit] at length
            refine ⟨0, p :: w, List.cons_prefix_cons.2 ⟨rfl, start⟩, (Trie.word_cons got).2 (.inr word), ?_, nothing⟩
            show KeyPos.mk n pos'.m_nLen = ⟨n + 0, (p :: w).length⟩
            rw [length, List.length_cons, fresh, Nat.zero_add, Nat.add_comm, Nat.add_zero]

theorem children_addNode (word : w ≠ []) : (DFANode.addNode node w).children ≠ [] := by
  cases w with
  | nil => exact absurd rfl word
  | cons k ks =>
    rw [DFANode.addNode]
    split <;> exact Trie.children_set_ne

/-- The words after `addNode` of one that no word of the trie begins. -/
theorem word_addNode (word : w ≠ []) (fresh : ∀ v, v <+: w → ¬ node.Word v) :
    (DFANode.addNode node w).Word v ↔ v = w ∨ (node.Word v ∧ ¬ w <+: v) := by
  induction w generalizing node v with
  | nil => exact absurd rfl word
  | cons k ks ih =>
    cases v with
    | nil => simp
    | cons j vs =>
      have replaced : ∃ c : DFANode, DFANode.addNode node (k :: ks) = node.set k (DFANode.addNode c ks) ∧
          (ks = [] → c = .leaf) ∧ (ks ≠ [] → ∀ v, node.Word (k :: v) ↔ c.Word v) := by
        have first : ¬ node.Word [k] := fresh [k] (by simp)
        cases got : node.get k with
        | none =>
          refine ⟨.leaf, by rw [DFANode.addNode, got], fun _ => rfl, fun _ v => ?_⟩
          exact iff_of_false (Trie.not_word_cons got) Trie.not_word_leaf
        | some pNode =>
          refine ⟨if ks = [] then .leaf else pNode, by rw [DFANode.addNode, got], fun last => if_pos last, fun more v => ?_⟩
          rw [Trie.word_cons got] at first ⊢
          rw [if_neg more]
          exact or_iff_right fun leaf => first (.inl ⟨rfl, leaf.2⟩)
      obtain ⟨c, added, last, more⟩ := replaced
      rw [added, Trie.word_set]
      split_ifs with same
      · subst same
        by_cases short : ks = []
        · subst short
          simp [last rfl, DFANode.addNode, Trie.not_word_leaf]
        · have below := @ih c vs short fun v start => by
            rw [← more short]
            exact fresh (j :: v) (List.cons_prefix_cons.2 ⟨rfl, start⟩)
          rw [below, more short]
          simp [children_addNode short, List.cons_prefix_cons]
      · simp [same, List.cons_prefix_cons, Ne.symm same]

end Words

section Files

variable {decode : List UInt8 → List keytype} {table : Table} {lines : List (List UInt8)} {line rest : List UInt8} {turns : Nat}

/-- The searches of the table find exactly the texts that contain one of these lines. -/
def Finds (decode : List UInt8 → List keytype) (table : Table) (lines : List (List UInt8)) : Prop :=
  ∀ s, (∃ w, w <:+: s ∧ table.root.Word w) ↔
    ∃ line ∈ lines, UTF8ToUnicode decode (c_str line) ≠ [] ∧ UTF8ToUnicode decode (c_str line) <:+: s

theorem Table.root_hasKeyWord (text : List keytype) : (table.hasKeyWord text).2.root = table.root := rfl

theorem Table.hasKeyWord_iff {text : List keytype} :
    (table.hasKeyWord text).1 = true ↔ ∃ w, w <:+: text ∧ table.root.Word w := hasKeyWord_text

theorem Finds.init : Finds decode .init [] := by
  intro s
  constructor
  · rintro ⟨w, -, word⟩
    exact absurd word Trie.not_word_leaf
  · rintro ⟨line, mem, -⟩
    cases mem

/-- A line without characters changes nothing. -/
theorem Finds.skip (finds : Finds decode table lines) (empty : UTF8ToUnicode decode (c_str line) = []) :
    Finds decode table (lines ++ [line]) := by
  intro s
  rw [finds s]
  constructor
  · rintro ⟨other, mem, inside⟩
    exact ⟨other, List.mem_append_left _ mem, inside⟩
  · rintro ⟨other, mem, some, inside⟩
    rcases List.mem_append.1 mem with mem | mem
    · exact ⟨other, mem, some, inside⟩
    · obtain rfl := List.mem_singleton.1 mem
      exact absurd empty some

/-- A line with a word of the table is found already; the words that a new line takes out
contain it. -/
theorem Finds.loadLine (finds : Finds decode table lines) : Finds decode (table.loadLine decode line) (lines ++ [line]) := by
  by_cases empty : UTF8ToUnicode decode (c_str line) = []
  · have same : (table.loadLine decode line).root = table.root := by
      rw [Table.loadLine, empty]
      rfl
    intro s
    rw [same]
    exact finds.skip empty s
  intro s
  have extended : (∃ l ∈ lines ++ [line], UTF8ToUnicode decode (c_str l) ≠ [] ∧ UTF8ToUnicode decode (c_str l) <:+: s) ↔
      (∃ w, w <:+: s ∧ table.root.Word w) ∨ UTF8ToUnicode decode (c_str line) <:+: s := by
    rw [finds s]
    simp [or_and_right, exists_or, empty]
  rw [extended, Table.loadLine]
  have found := @Table.hasKeyWord_iff table (UTF8ToUnicode decode (c_str line))
  simp only
  split_ifs with known
  · rw [Table.root_hasKeyWord]
    obtain ⟨v, within, word⟩ := found.1 known
    exact (or_iff_left_of_imp fun inside => ⟨v, within.trans inside, word⟩).symm
  · have fresh : ∀ v, v <+: UTF8ToUnicode decode (c_str line) → ¬ table.root.Word v :=
      fun v start word => known (found.2 ⟨v, start.isInfix, word⟩)
    show (∃ w, w <:+: s ∧ (DFANode.addNode table.root _).Word w) ↔ _
    simp only [word_addNode empty fresh]
    constructor
    · rintro ⟨w, inside, rfl | ⟨word, -⟩⟩
      · exact .inr inside
      · exact .inl ⟨w, inside, word⟩
    · rintro (⟨w, inside, word⟩ | inside)
      · by_cases start : UTF8ToUnicode decode (c_str line) <+: w
        · exact ⟨_, start.isInfix.trans inside, .inl rfl⟩
        · exact ⟨w, inside, .inr ⟨word, start⟩⟩
      · exact ⟨_, inside, .inl rfl⟩

/-- `getline` takes the first line, when it is short enough. -/
theorem scanLine_eq {n : Nat} (short : ∀ line, (rest.splitOn newline).head? = some line → line.length ≤ n) :
    (∃ line cs, rest.splitOn newline = line :: cs.splitOn newline ∧ cs.length < rest.length ∧
      scanLine n rest = (line, ⟨cs, false, false⟩)) ∨
    (rest.splitOn newline = [rest] ∧ scanLine n rest = (rest, ⟨[], true, false⟩)) := by
  induction rest generalizing n with
  | nil => exact .inr ⟨rfl, by simp [scanLine]⟩
  | cons c cs ih =>
    rw [List.splitOn_cons_eq_if_modifyHead] at short ⊢
    by_cases stop : c = newline
    · rw [if_pos (beq_iff_eq.2 stop)]
      exact .inl ⟨[], cs, rfl, Nat.lt_succ_self _, by cases n <;> simp [scanLine, stop]⟩
    rw [if_neg fun same => stop (beq_iff_eq.1 same)] at short ⊢
    obtain ⟨line, more, first⟩ := List.exists_cons_of_ne_nil (List.splitOn_ne_nil newline cs)
    rw [first, List.modifyHead_cons] at short
    cases n with
    | zero => exact absurd (short _ rfl) (by simp)
    | succ n =>
      have bound : ∀ line, (cs.splitOn newline).head? = some line → line.length ≤ n := by
        intro line' same
        rw [first, List.head?_cons] at same
        obtain rfl := Option.some.inj same
        exact Nat.le_of_succ_le_succ (short _ rfl)
      rcases ih bound with ⟨line', rest', lines, shorter, scanned⟩ | ⟨lines, scanned⟩
      · refine .inl ⟨c :: line', rest', by rw [lines, List.modifyHead_cons], Nat.lt_succ_of_lt shorter, ?_⟩
        rw [scanLine, if_neg stop, scanned]
      · refine .inr ⟨by rw [lines, List.modifyHead_cons], ?_⟩
        rw [scanLine, if_neg stop, scanned]

/-- The loop loads the lines of what is left of the file. -/
theorem Finds.loadLoop (finds : Finds decode table lines) (enough : rest.length < turns)
    (short : ∀ line ∈ rest.splitOn newline, line.length < 1024) :
    Finds decode (table.loadLoop decode turns ⟨rest, false, false⟩) (lines ++ rest.splitOn newline) := by
  induction turns generalizing table lines rest with
  | zero => exact absurd enough (Nat.not_lt_zero _)
  | succ turns ih =>
    have stopped : ∀ t : Table, ∀ f : ifstream, f.eof = true → t.loadLoop decode turns f = t := by
      intro t f ended
      cases turns with
      | zero => rfl
      | succ turns => simp [Table.loadLoop, ended]
    have first := scanLine_eq (n := 1023) fun line same => Nat.le_of_lt_succ (short line (List.mem_of_mem_head? same))
    rw [Table.loadLoop, if_pos ⟨rfl, rfl⟩]
    rcases first with ⟨line, cs, split, shorter, scanned⟩ | ⟨split, scanned⟩
    · simp only [getline, scanned, Nat.add_one_sub_one, Bool.and_false, Bool.or_false, Bool.false_eq_true, if_false]
      rw [split] at short ⊢
      rw [List.append_cons]
      exact ih finds.loadLine (by omega) fun l mem => short l (List.mem_cons_of_mem _ mem)
    · simp only [getline, scanned, Nat.add_one_sub_one, Bool.and_true, Bool.false_or, List.isEmpty_iff]
      rw [split]
      split_ifs with empty
      · rw [stopped _ _ rfl]
        subst empty
        exact finds.skip rfl
      · rw [stopped _ _ rfl]
        exact finds.loadLine

/-- **A search for the keywords is a search for the lines**: it finds exactly the texts that contain
a line of the file that is not empty. -/
theorem hasKeyWord_loadFile {content : List UInt8} {units : List UInt8 → List keytype}
    (short : ∀ line ∈ content.splitOn newline, line.length < 1024)
    (reads : ∀ line ∈ content.splitOn newline, UTF8ToUnicode decode (c_str line) = units line) (s : List keytype) :
    ((Table.init.loadFile decode content).hasKeyWord s).1 = true ↔
      ∃ line ∈ content.splitOn newline, units line ≠ [] ∧ units line <:+: s := by
  have finds : Finds decode (Table.init.loadFile decode content) ([] ++ content.splitOn newline) :=
    Finds.init.loadLoop (Nat.lt_succ_self _) short
  rw [Table.hasKeyWord_iff, finds s]
  refine exists_congr fun line => and_congr_right fun mem => ?_
  rw [reads line mem]

/-- The second line cuts the first one and the third is skipped. -/
theorem hasKeyWord_loadFile_three : ((Table.init.loadFile (·.map UInt8.toUInt16) [97, 98, 99, 10, 97, 98, 10, 97, 98, 98]).hasKeyWord
    [98, 97, 98]).1 = true ∧ [97, 98] ∈ ([97, 98, 99, 10, 97, 98, 10, 97, 98, 98] : List UInt8).splitOn newline := by
  have line : [97, 98] ∈ ([97, 98, 99, 10, 97, 98, 10, 97, 98, 98] : List UInt8).splitOn newline := by decide
  have word : ([97, 98] : List UInt8).map UInt8.toUInt16 <:+: [98, 97, 98] := by decide
  exact ⟨(hasKeyWord_loadFile (by decide) (by decide) [98, 97, 98]).2 ⟨[97, 98], line, by decide, word⟩, line⟩

end Files

end GameServer.Text

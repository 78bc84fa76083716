import GameServer.Db.Statements
import GameServer.Text.Delimiters

/-!
# Named placeholders

`AnalyzeSql` takes the names of the placeholders out of a text, one after the other, in the text itself: it keeps the place of a
question mark and looks for the end of the name and for the next question mark from there on. What it makes of a text is said by
`names` and `withoutNames`, which read the text once (`AnalyzeSql_eq`); so the lists in `m_Index` are the right ones
(`AnalyzeSql_ordinals`), and preparing a statement reads a text in the same way (`AnalyzeSql_chars`).
-/

namespace GameServer.Db.Placeholders

open GameServer.Lib
open Text (FindString FindStringAt startsWith)

/-- What ends a name; the second is the NUL behind the text. -/
def finder : List (List UInt8) := [[44], [0], [32], [41]]

/-- `str + pos + 1`, as far as `strlen` counts. -/
def behind (temp_sql : List UInt8) (pos : Nat) : List UInt8 := (temp_sql.drop (pos + 1)).takeWhile (· ≠ 0)

/-- `m_Index[ss].push_back(index)`. -/
def push (m_Index : List UInt8 → List Nat) (ss : List UInt8) (index : Nat) : List UInt8 → List Nat :=
  Function.update m_Index ss (m_Index ss ++ [index])

/-- The first half of a turn: the name behind the question mark at `pos` is taken out. No name at all is an `abort`. -/
def takeName (temp_sql : List UInt8) (pos index : Nat) (m_Index : List UInt8 → List Nat) :
    Option (List UInt8 × (List UInt8 → List Nat)) :=
  match FindStringAt finder (behind temp_sql pos ++ [0]) with
  | none => some (temp_sql, m_Index)
  | some (s_pos, _) =>
    let ss := (behind temp_sql pos).take s_pos
    if ss = [] then none else some (temp_sql.take (pos + 1) ++ temp_sql.drop (pos + 1 + s_pos), push m_Index ss index)

/-- The loop, for so many turns at most. -/
def analyzeLoop : Nat → List UInt8 → (pos index : Nat) → (List UInt8 → List Nat) → Option (List UInt8 × (List UInt8 → List Nat))
  | 0, _, _, _, _ => none
  | turns + 1, temp_sql, pos, index, m_Index =>
    (takeName temp_sql pos index m_Index).bind fun (temp_sql, m_Index) =>
      match FindString [63] (behind temp_sql pos) with
      | none => some (temp_sql, m_Index)
      | some t_pos => analyzeLoop turns temp_sql (pos + (t_pos + 1)) (index + 1) m_Index

/-- `AnalyzeSql`: the text that is returned, and what is then in `stmt->m_Index`. -/
def AnalyzeSql (m_Index : List UInt8 → List Nat) (sql : List UInt8) : Option (List UInt8 × (List UInt8 → List Nat)) :=
  match FindString [63] sql with
  | none => some (sql, m_Index)
  | some pos => analyzeLoop (sql.length + 1) sql pos 0 m_Index

/-- Not a comma, a space or a closing parenthesis. -/
def isName (c : UInt8) : Bool := c ≠ 44 && c ≠ 32 && c ≠ 41

/-- The names behind the question marks of a text, of which the beginning may be in a name. -/
def names : (inside : Bool) → List UInt8 → List (List UInt8)
  | _, [] => []
  | false, c :: text => if c = 63 then text.takeWhile isName :: names true text else names false text
  | true, c :: text => names (isName c) text

/-- The text without these names. -/
def withoutNames : (inside : Bool) → List UInt8 → List UInt8
  | _, [] => []
  | false, c :: text => c :: withoutNames (c = 63) text
  | true, c :: text => if isName c then withoutNames true text else c :: withoutNames false text

/-- The ordinals of a name, counted from `first`. -/
def ordinals (first : Nat) (ns : List (List UInt8)) (name : List UInt8) : List Nat :=
  ((ns.zipIdx first).filter (·.1 = name)).map (·.2)

/-- Every question mark is followed by a name without a question mark, which is ended by one of the three characters or by the end
of the text. -/
def Named (sql : List UInt8) : Prop :=
  ∀ text, 63 :: text <:+ sql → text.takeWhile isName ≠ [] ∧ 63 ∉ text.takeWhile isName

section Scan

variable {s text pre : List UInt8} {c : UInt8} {pos index first turns : Nat} {m_Index : List UInt8 → List Nat}
  {ns : List (List UInt8)} {name : List UInt8}

theorem FindStringAt_finder (plain : 0 ∉ s) : FindStringAt finder (s ++ [0]) = some ((s.takeWhile isName).length, 1) := by
  induction s with
  | nil => rfl
  | cons c s ih =>
    have notNull : c ≠ 0 := fun zero => plain (zero ▸ List.mem_cons_self)
    rw [List.cons_append, FindStringAt, ih fun mem => plain (List.mem_cons_of_mem c mem)]
    by_cases name : isName c
    · rw [List.takeWhile_cons_of_pos name]
      simp only [isName, Bool.and_eq_true, decide_eq_true_eq] at name
      obtain ⟨⟨comma, space⟩, bracket⟩ := name
      simp [finder, startsWith, notNull, comma, space, bracket]
    · rw [List.takeWhile_cons_of_neg name]
      simp only [isName, Bool.and_eq_true, decide_eq_true_eq, not_and_or, Classical.not_not] at name
      rcases name with (rfl | rfl) | rfl <;> rfl

/-- A text without a question mark, or the first one of it. -/
theorem exists_mark (s : List UInt8) : (63 ∉ s ∧ FindString [63] s = none) ∨
    ∃ pre text, s = pre ++ 63 :: text ∧ 63 ∉ pre ∧ FindString [63] s = some pre.length := by
  induction s with
  | nil => exact .inl ⟨List.not_mem_nil, rfl⟩
  | cons c s ih =>
    by_cases mark : c = 63
    · subst mark
      exact .inr ⟨[], s, rfl, List.not_mem_nil, rfl⟩
    · have other : startsWith (c :: s) [63] = false := by simp [startsWith, mark]
      have step : FindString [63] (c :: s) = (FindString [63] s).map (· + 1) := by
        rw [FindString, other]
        rfl
      rcases ih with ⟨absent, none'⟩ | ⟨pre, text, rfl, absent, found⟩
      · refine .inl ⟨?_, by rw [step, none']; rfl⟩
        rw [List.mem_cons, not_or]
        exact ⟨Ne.symm mark, absent⟩
      · refine .inr ⟨c :: pre, text, rfl, ?_, by rw [step, found]; rfl⟩
        rw [List.mem_cons, not_or]
        exact ⟨Ne.symm mark, absent⟩

theorem names_inside (s : List UInt8) : names true s = names false (s.dropWhile isName) := by
  induction s with
  | nil => rfl
  | cons c s ih =>
    rw [names]
    by_cases name : isName c
    · rw [List.dropWhile_cons_of_pos name, name, ih]
    · have mark : c ≠ 63 := by
        rintro rfl
        exact name rfl
      rw [List.dropWhile_cons_of_neg name, Bool.eq_false_of_not_eq_true name, names, if_neg mark]

theorem withoutNames_inside (s : List UInt8) : withoutNames true s = withoutNames false (s.dropWhile isName) := by
  induction s with
  | nil => rfl
  | cons c s ih =>
    rw [withoutNames]
    by_cases name : isName c
    · rw [List.dropWhile_cons_of_pos name, if_pos name, ih]
    · have mark : c ≠ 63 := by
        rintro rfl
        exact name rfl
      rw [List.dropWhile_cons_of_neg name, if_neg name, withoutNames, decide_eq_false mark]

/-- What stands before the first question mark is kept. -/
theorem names_append (absent : 63 ∉ pre) : names false (pre ++ s) = names false s := by
  induction pre with
  | nil => rfl
  | cons c pre ih =>
    rw [List.mem_cons, not_or] at absent
    rw [List.cons_append, names, if_neg (Ne.symm absent.1), ih absent.2]

theorem withoutNames_append (absent : 63 ∉ pre) : withoutNames false (pre ++ s) = pre ++ withoutNames false s := by
  induction pre with
  | nil => rfl
  | cons c pre ih =>
    rw [List.mem_cons, not_or] at absent
    rw [List.cons_append, withoutNames, decide_eq_false (Ne.symm absent.1), ih absent.2, List.cons_append]

theorem names_of_not_mem (absent : 63 ∉ s) : names false s = [] ∧ withoutNames false s = s := by
  have kept := names_append (s := []) absent
  have kept' := withoutNames_append (s := []) absent
  rw [List.append_nil] at kept kept'
  exact ⟨kept, kept'.trans (List.append_nil s)⟩

theorem names_mark (text : List UInt8) :
    names false (63 :: text) = text.takeWhile isName :: names false (text.dropWhile isName) ∧
      withoutNames false (63 :: text) = 63 :: withoutNames false (text.dropWhile isName) := by
  rw [names, withoutNames, if_pos rfl, decide_eq_true rfl, names_inside, withoutNames_inside]
  exact ⟨rfl, rfl⟩

theorem ordinals_cons (first : Nat) (n : List UInt8) (ns : List (List UInt8)) (name : List UInt8) :
    ordinals first (n :: ns) name = if n = name then first :: ordinals (first + 1) ns name else ordinals (first + 1) ns name := by
  rw [ordinals, List.zipIdx_cons, List.filter_cons]
  by_cases same : n = name
  · rw [if_pos same, if_pos (by simpa using same)]
    rfl
  · rw [if_neg same, if_neg (by simpa using same)]
    rfl

/-- The ordinals of a name are the places of it, in order. -/
theorem ordinals_eq (first : Nat) (ns : List (List UInt8)) (name : List UInt8) :
    ordinals first ns name = ((List.range ns.length).filter fun i => ns[i]? = some name).map (first + ·) := by
  induction ns generalizing first with
  | nil => rfl
  | cons n ns ih =>
    have shift : ((fun i => first + i) ∘ Nat.succ) = fun i => first + 1 + i := by
      funext i
      exact (Nat.add_right_comm first i 1).symm ▸ rfl
    have later : ((fun i => decide ((n :: ns)[i]? = some name)) ∘ Nat.succ) = fun i => decide (ns[i]? = some name) := rfl
    rw [ordinals_cons, ih, List.length_cons, List.range_succ_eq_map, List.filter_cons, List.filter_map, later, ← shift,
      ← List.map_map]
    by_cases same : n = name
    · rw [if_pos same, if_pos (by simpa using same), List.map_cons, Nat.add_zero]
    · rw [if_neg same, if_neg (by simpa using same)]

end Scan

section Loop

variable {s text pre : List UInt8} {index turns : Nat} {m_Index : List UInt8 → List Nat}

theorem behind_mark (plain : 0 ∉ text) : behind (pre ++ 63 :: text) pre.length = text := by
  have after : (pre ++ 63 :: text).drop (pre.length + 1) = text := by
    rw [← List.drop_drop, List.drop_left, List.drop_succ_cons, List.drop_zero]
  rw [behind, after, List.takeWhile_eq_self_iff]
  intro c mem
  refine decide_eq_true fun zero => plain (zero ▸ mem)

/-- The name goes, and its ordinal is noted. -/
theorem takeName_eq (plain : 0 ∉ text) : takeName (pre ++ 63 :: text) pre.length index m_Index =
    if text.takeWhile isName = [] then none
    else some (pre ++ 63 :: text.dropWhile isName, push m_Index (text.takeWhile isName) index) := by
  have name : text.take (text.takeWhile isName).length = text.takeWhile isName := by
    nth_rewrite 2 [← List.takeWhile_append_dropWhile (p := isName) (l := text)]
    rw [List.take_left]
  have rest : text.drop (text.takeWhile isName).length = text.dropWhile isName := by
    nth_rewrite 2 [← List.takeWhile_append_dropWhile (p := isName) (l := text)]
    rw [List.drop_left]
  have before : (pre ++ 63 :: text).take (pre.length + 1) = pre ++ [63] := by
    rw [List.take_append, List.take_of_length_le (Nat.le_succ _), Nat.add_sub_cancel_left]
    rfl
  have after : (pre ++ 63 :: text).drop (pre.length + 1 + (text.takeWhile isName).length) = text.dropWhile isName := by
    rw [← List.drop_drop, ← List.drop_drop, List.drop_left, List.drop_succ_cons, List.drop_zero, rest]
  rw [takeName, behind_mark plain, FindStringAt_finder plain]
  simp only [name, before, after, List.append_assoc, List.singleton_append]

theorem push_ordinals (name : List UInt8) (ns : List (List UInt8)) :
    (fun n => push m_Index name index n ++ ordinals (index + 1) ns n) = fun n => m_Index n ++ ordinals index (name :: ns) n := by
  funext n
  rw [ordinals_cons, push]
  by_cases same : name = n
  · subst same
    rw [if_pos rfl, Function.update_self, List.append_assoc, List.singleton_append]
  · rw [if_neg same, Function.update_of_ne (Ne.symm same)]

/-- **The loop**, at a question mark: all names from there on are taken out, unless one of them is empty. -/
theorem analyzeLoop_eq (plain : 0 ∉ text) (enough : text.length < turns) :
    analyzeLoop turns (pre ++ 63 :: text) pre.length index m_Index =
      if [] ∈ names false (63 :: text) then none
      else some (pre ++ withoutNames false (63 :: text), fun n => m_Index n ++ ordinals index (names false (63 :: text)) n) := by
  induction turns generalizing text pre index m_Index with
  | zero => exact absurd enough (Nat.not_lt_zero _)
  | succ turns ih =>
    obtain ⟨marked, kept⟩ := names_mark text
    have plain' : 0 ∉ text.dropWhile isName := fun mem => plain ((List.dropWhile_suffix isName).subset mem)
    rw [analyzeLoop, takeName_eq plain, marked, kept]
    by_cases empty : text.takeWhile isName = []
    · rw [if_pos empty, empty, if_pos List.mem_cons_self]
      rfl
    · rw [if_neg empty, Option.bind_some]
      simp only [behind_mark plain']
      rcases exists_mark (text.dropWhile isName) with ⟨absent, none'⟩ | ⟨mid, rest, split, absent, found⟩
      · obtain ⟨no, all⟩ := names_of_not_mem absent
        have single : (fun n => push m_Index (text.takeWhile isName) index n) =
            fun n => m_Index n ++ ordinals index [text.takeWhile isName] n := by
          rw [← push_ordinals]
          simp only [ordinals, List.zipIdx_nil, List.filter_nil, List.map_nil, List.append_nil]
        have named : [] ∉ [text.takeWhile isName] := fun mem => empty (List.mem_singleton.1 mem).symm
        rw [none', no, all, if_neg named]
        exact congrArg (fun f => some (pre ++ 63 :: text.dropWhile isName, f)) single
      · have fewer : rest.length < turns := by
          have length := (List.dropWhile_suffix isName (l := text)).length_le
          rw [split, List.length_append, List.length_cons] at length
          omega
        have plain'' : 0 ∉ rest := by
          intro mem
          apply plain'
          rw [split]
          exact List.mem_append_right mid (List.mem_cons_of_mem 63 mem)
        have place : pre.length + (mid.length + 1) = (pre ++ 63 :: mid).length := by
          rw [List.length_append, List.length_cons]
        have whole : pre ++ 63 :: (mid ++ 63 :: rest) = (pre ++ 63 :: mid) ++ 63 :: rest := by
          rw [List.append_assoc, List.cons_append]
        have go := @ih rest (pre ++ 63 :: mid) (index + 1) (push m_Index (text.takeWhile isName) index) plain'' fewer
        rw [found]
        simp only
        rw [split, place, whole, go, names_append absent, withoutNames_append absent, push_ordinals]
        by_cases later : [] ∈ names false (63 :: rest)
        · rw [if_pos later, if_pos (List.mem_cons_of_mem _ later)]
        · have named : [] ∉ text.takeWhile isName :: names false (63 :: rest) := by
            rw [List.mem_cons, not_or]
            exact ⟨Ne.symm empty, later⟩
          rw [if_neg later, if_neg named, List.append_assoc, List.cons_append]

/-- **What `AnalyzeSql` does** with a text without a NUL: it fails where a placeholder has no name, and otherwise takes all names out
and notes their ordinals. -/
theorem AnalyzeSql_eq (sql : List UInt8) (plain : 0 ∉ sql) : AnalyzeSql m_Index sql =
    if [] ∈ names false sql then none
    else some (withoutNames false sql, fun n => m_Index n ++ ordinals 0 (names false sql) n) := by
  rcases exists_mark sql with ⟨absent, none'⟩ | ⟨pre, text, rfl, absent, found⟩
  · obtain ⟨no, all⟩ := names_of_not_mem absent
    rw [AnalyzeSql, none', no, all, if_neg List.not_mem_nil]
    simp only [ordinals, List.zipIdx_nil, List.filter_nil, List.map_nil, List.append_nil]
  · have plain' : 0 ∉ text := fun mem => plain (List.mem_append_right pre (List.mem_cons_of_mem 63 mem))
    have enough : text.length < (pre ++ 63 :: text).length + 1 := by
      rw [List.length_append, List.length_cons]
      omega
    rw [AnalyzeSql, found]
    simp only
    rw [analyzeLoop_eq plain' enough, names_append absent, withoutNames_append absent]

end Loop

section Exact

variable {s text : List UInt8} {c : UInt8}

instance : DecidablePred Named := fun sql =>
  decidable_of_iff (∀ t ∈ sql.tails, t.head? = some 63 → t.tail.takeWhile isName ≠ [] ∧ 63 ∉ t.tail.takeWhile isName) <| by
    constructor
    · intro all text here
      exact all (63 :: text) ((List.mem_tails _ _).2 here) rfl
    · intro named t mem mark
      obtain ⟨text, rfl⟩ := List.head?_eq_some_iff.1 mark
      exact named text ((List.mem_tails _ _).1 mem)

theorem Named.tail (named : Named (c :: s)) : Named s := fun text here => named text (here.trans (List.suffix_cons c s))

theorem Named.nonempty (named : Named s) : ∀ inside, [] ∉ names inside s := by
  induction s with
  | nil => exact fun _ => List.not_mem_nil
  | cons c s ih =>
    have later := ih named.tail
    intro inside
    cases inside with
    | true => exact later (isName c)
    | false =>
      rw [names]
      split_ifs with mark
      · subst mark
        rw [List.mem_cons, not_or]
        exact ⟨Ne.symm (named s (List.suffix_refl _)).1, later true⟩
      · exact later false

/-- There are as many names as question marks. -/
theorem Named.length_names (named : Named s) : (names false s).length = s.count 63 ∧
    (names true s).length + (s.takeWhile isName).count 63 = s.count 63 := by
  induction s with
  | nil => exact ⟨rfl, rfl⟩
  | cons c s ih =>
    obtain ⟨outside, inside⟩ := ih named.tail
    constructor
    · rw [names, List.count_cons]
      split_ifs with mark mark' mark'
      · subst mark
        have none' := List.count_eq_zero.2 (named s (List.suffix_refl _)).2
        rw [List.length_cons]
        omega
      · simp [mark] at mark'
      · simp [mark] at mark'
      · exact outside
    · rw [names]
      by_cases name : isName c
      · rw [name, List.takeWhile_cons_of_pos name, List.count_cons, List.count_cons]
        omega
      · have mark : c ≠ 63 := by
          rintro rfl
          exact name rfl
        rw [Bool.eq_false_of_not_eq_true name, List.takeWhile_cons_of_neg name, List.count_cons_of_ne mark]
        exact outside

/-- **Named placeholders are translated exactly**: every name is taken out and nothing else, and the list of a name holds the ordinals
of its placeholders, of which there is one for each question mark. -/
theorem AnalyzeSql_ordinals (sql : List UInt8) (plain : 0 ∉ sql) (named : Named sql) :
    AnalyzeSql (fun _ => []) sql = some (withoutNames false sql, fun name =>
      (List.range (names false sql).length).filter fun i => (names false sql)[i]? = some name) ∧
      (names false sql).length = sql.count 63 := by
  refine ⟨?_, named.length_names.1⟩
  rw [AnalyzeSql_eq sql plain, if_neg (named.nonempty false)]
  have same : (fun n => [] ++ ordinals 0 (names false sql) n) =
      fun name => (List.range (names false sql).length).filter fun i => (names false sql)[i]? = some name := by
    funext name
    rw [List.nil_append, ordinals_eq]
    simp only [Nat.zero_add, List.map_id']
  rw [same]

/-- The text `"?a,?b ?a"`. -/
theorem AnalyzeSql_ordinals_twice : (AnalyzeSql (fun _ => []) [63, 97, 44, 63, 98, 32, 63, 97]).map (fun r => (r.1, r.2 [97], r.2 [98])) =
    some ([63, 44, 63, 32, 63], [0, 2], [1]) := by
  rw [(AnalyzeSql_ordinals [63, 97, 44, 63, 98, 32, 63, 97] (by decide) (by decide)).1]
  decide

/-- Bytes as characters. -/
def chars (s : List UInt8) : List Char := s.map Char.ofUInt8

theorem ofUInt8_inj {c d : UInt8} : Char.ofUInt8 c = Char.ofUInt8 d ↔ c = d := by
  constructor
  · intro same
    have val : c.toUInt32 = d.toUInt32 := congrArg Char.val same
    have nat := congrArg UInt32.toNat val
    rw [UInt8.toNat_toUInt32, UInt8.toNat_toUInt32] at nat
    exact UInt8.toNat_inj.1 nat
  · intro same
    rw [same]

theorem chars_inj {s t : List UInt8} : chars s = chars t ↔ s = t :=
  (List.map_injective_iff.2 fun _ _ same => ofUInt8_inj.1 same).eq_iff

theorem isName_iff : isName c = true ↔ ¬ (Char.ofUInt8 c = ',' ∨ Char.ofUInt8 c = ' ' ∨ Char.ofUInt8 c = ')') := by
  have comma : Char.ofUInt8 c = ',' ↔ c = 44 := ofUInt8_inj (d := 44)
  have space : Char.ofUInt8 c = ' ' ↔ c = 32 := ofUInt8_inj (d := 32)
  have bracket : Char.ofUInt8 c = ')' ↔ c = 41 := ofUInt8_inj (d := 41)
  rw [comma, space, bracket]
  simp [isName, and_assoc]

/-- How a statement reads a text, outside a name and inside one of which `name` has been read. -/
theorem read_chars (s : List UInt8) : ∀ index,
    (Db.AnalyzeSql index none (chars s) = if [] ∈ names false s then none
      else some (chars (withoutNames false s), ((names false s).map chars).zipIdx index)) ∧
    ∀ name, Db.AnalyzeSql index (some (chars name)) (chars s) =
      if [] ∈ (name ++ s.takeWhile isName) :: names true s then none
      else some (chars (withoutNames true s), (((name ++ s.takeWhile isName) :: names true s).map chars).zipIdx index) := by
  induction s with
  | nil =>
    refine fun index => ⟨rfl, fun name => ?_⟩
    cases name with
    | nil => rfl
    | cons d name => simp [Db.AnalyzeSql, names, withoutNames, chars]
  | cons c s ih =>
    intro index
    constructor
    · have mark : Char.ofUInt8 c = '?' ↔ c = 63 := ofUInt8_inj (d := 63)
      have here : chars (c :: s) = Char.ofUInt8 c :: chars s := rfl
      rw [here, Db.AnalyzeSql, names, withoutNames]
      by_cases same : c = 63
      · have begin := (ih index).2 []
        rw [List.nil_append] at begin
        rw [if_pos (mark.2 same), if_pos same, decide_eq_true same]
        change (Db.AnalyzeSql index (some (chars [])) (chars s)).map _ = _
        rw [begin]
        split_ifs <;> rfl
      · rw [if_neg fun is => same (mark.1 is), if_neg same, decide_eq_false same, (ih index).1]
        split_ifs <;> rfl
    · intro name
      have here : chars (c :: s) = Char.ofUInt8 c :: chars s := rfl
      rw [here, Db.AnalyzeSql, names, withoutNames]
      by_cases inName : isName c
      · have longer : chars name ++ [Char.ofUInt8 c] = chars (name ++ [c]) := by
          rw [chars, chars, List.map_append, List.map_singleton]
        rw [if_neg (isName_iff.1 inName), inName, if_pos rfl, longer, (ih index).2, List.takeWhile_cons_of_pos inName,
          List.append_assoc, List.singleton_append]
      · have ends : Char.ofUInt8 c = ',' ∨ Char.ofUInt8 c = ' ' ∨ Char.ofUInt8 c = ')' :=
          Classical.not_not.1 fun no => inName (isName_iff.2 no)
        rw [if_pos ends, Bool.eq_false_of_not_eq_true inName, List.takeWhile_cons_of_neg inName, List.append_nil,
          if_neg Bool.false_ne_true]
        by_cases empty : name = []
        · subst empty
          rw [if_pos List.mem_cons_self]
          rfl
        · have some' : chars name ≠ [] := fun none' => empty (List.map_eq_nil_iff.1 none')
          rw [if_neg some', (ih (index + 1)).1]
          by_cases later : [] ∈ names false s
          · rw [if_pos later, if_pos (List.mem_cons_of_mem _ later)]
            rfl
          · have named : [] ∉ name :: names false s := by
              rw [List.mem_cons, not_or]
              exact ⟨Ne.symm empty, later⟩
            rw [if_neg later, if_neg named]
            rfl

theorem filter_zipIdx_chars (ns : List (List UInt8)) (first : Nat) (name : List UInt8) :
    (((ns.map chars).zipIdx first).filter (·.1 = chars name)).map (·.2) = ordinals first ns name := by
  rw [ordinals, List.zipIdx_map, List.filter_map, List.map_map]
  have same : ((fun p : List Char × Nat => decide (p.1 = chars name)) ∘ Prod.map chars id) =
      fun p : List UInt8 × Nat => decide (p.1 = name) := by
    funext p
    exact decide_eq_decide.2 chars_inj
  rw [same]
  rfl

/-- **Statements are prepared from the same text and the same ordinals**, and preparing one fails for the same texts. -/
theorem AnalyzeSql_chars (sql : List UInt8) (plain : 0 ∉ sql) :
    (Db.AnalyzeSql 0 none (chars sql)).map (fun r => (r.1, fun name => (r.2.filter (·.1 = chars name)).map (·.2))) =
      (AnalyzeSql (fun _ => []) sql).map fun r => (chars r.1, r.2) := by
  rw [((read_chars sql) 0).1, AnalyzeSql_eq sql plain]
  split_ifs
  · rfl
  · simp only [Option.map_some, filter_zipIdx_chars, List.nil_append]

end Exact

end GameServer.Db.Placeholders

import GameServer.Db.Statements
import Mathlib.Data.List.Basic

/-!
# Generated database handlers

For a `DBItem` and the fields of its message `writedbs_cpp` writes the functions `processInsert`,
`processUpdate`, `processDelete` and `processRequest`. Each of them has an SQL text with placeholders, binds
values to names and hands both to `AsynExecuteQueryVariable`.

`Statement` is the part of SQL these texts are written in, with the rows a statement affects; the names of the
placeholders are those that `AnalyzeSql` finds. The handlers are never all right together
(`handlers_inconsistent`): `processRequest` does not pass what it has bound, and `processUpdate` has no condition
on the row. `Exact` says what each of them does get right, and when.
-/

namespace GameServer.Tools

open GameServer.Db

/-- The texts in `type` that the generator knows. -/
inductive FieldType where
  | int32
  | int64
  | string
  | proto
  | int32_s
  | int64_s
  | string_s
  | proto_s
  | other
  deriving DecidableEq, Repr

structure ProtoField where
  name : List Char
  type : FieldType
  deriving DecidableEq, Repr

/-- Of a `DBItem` what the four handlers are made of. -/
structure DBItem where
  table_name : List Char
  proto_name : List Char
  primary_key : List Char
  dbtype : List (List Char × List Char)
  request_proto : List Char
  deriving DecidableEq, Repr

/-- The line `pBind->setter("name",value);` as it is written, whatever `value` is. -/
structure Bind where
  setter : List Char
  name : List Char
  value : List Char
  deriving DecidableEq, Repr

/-- A function that parses a `message`, prepares `sql`, binds and calls `AsynExecuteQueryVariable`. -/
structure Handler where
  message : List Char
  sql : List Char
  binds : List Bind
  /-- `pBind` is the second argument of the call, and not `nullptr`. -/
  passed : Bool
  deriving DecidableEq, Repr

/-- `notify.name()`. -/
def getter (f : ProtoField) : List Char := "notify.".toList ++ f.name ++ "()".toList

/-- What the bind loops write for a field. -/
def bindOf (item : DBItem) (f : ProtoField) : Option Bind :=
  match item.dbtype.lookup f.name with
  | some dbtype => if dbtype = "datetime".toList then some ⟨"SetDate".toList, f.name, getter f⟩ else none
  | none =>
    match f.type with
    | .int32 => some ⟨"SetInt32".toList, f.name, getter f⟩
    | .int64 => some ⟨"SetInt64".toList, f.name, getter f⟩
    | .string => some ⟨"SetString".toList, f.name, getter f⟩
    -- one parenthesis is never closed
    | .proto | .proto_s | .int32_s | .int64_s | .string_s =>
      some ⟨"SetString".toList, f.name, "JsonConvert::ProtoBufToJsonString(".toList ++ getter f⟩
    | .other => none

/-- The loops that write a piece for every field that is not skipped, with a comma after all but the last field. -/
def pieces (piece : ProtoField → List Char) (skip : ProtoField → Bool) : List ProtoField → List Char
  | [] => []
  | f :: rest => (if skip f then [] else piece f ++ if rest = [] then [] else [',']) ++ pieces piece skip rest

def processInsert (item : DBItem) (fields : List ProtoField) : Handler where
  message := item.proto_name
  sql := "insert into ".toList ++ item.table_name ++ "(".toList ++ pieces (·.name) (fun _ => false) fields ++
    ") values(".toList ++ pieces (fun f => '?' :: f.name) (fun _ => false) fields ++ ")".toList
  binds := fields.filterMap (bindOf item)
  passed := true

def processUpdate (item : DBItem) (fields : List ProtoField) : Handler where
  message := item.proto_name
  sql := "update ".toList ++ item.table_name ++ " set ".toList ++
    pieces (fun f => f.name ++ "=?".toList ++ f.name) (fun f => f.name = item.primary_key) fields
  binds := fields.filterMap (bindOf item)
  passed := true

def processDelete (item : DBItem) (fields : List ProtoField) : Handler where
  message := item.proto_name
  sql := "delete from ".toList ++ item.table_name ++ " where ".toList ++ item.primary_key ++ " = ?".toList ++ item.primary_key
  binds := (fields.filter fun f => f.name = item.primary_key).filterMap (bindOf item)
  passed := true

def processRequest (item : DBItem) : Handler where
  message := item.request_proto
  sql := "select * from ".toList ++ item.table_name ++ " where playerid = ?playerid".toList
  binds := [⟨"SetInt32".toList, "playerid".toList, "request.playerid()".toList⟩]
  passed := false

/-! ## Statements -/

/-- The statements, with a name for each placeholder; a condition compares a column with a placeholder. -/
inductive Statement where
  | insert (table : List Char) (columns values : List (List Char))
  | update (table : List Char) (sets : List (List Char × List Char)) (condition : Option (List Char × List Char))
  | delete (table : List Char) (condition : Option (List Char × List Char))
  | select (table : List Char) (condition : Option (List Char × List Char))

/-- A name is made of letters, digits and underscores. -/
def Named (name : List Char) : Prop := name ≠ [] ∧ ∀ c ∈ name, c.isAlphanum ∨ c = '_'

namespace Statement

def commas : List (List Char) → List Char := List.intercalate [',']

def renderCondition (c : List Char × List Char) : List Char := " where ".toList ++ c.1 ++ " = ?".toList ++ c.2

def renderWhere (condition : Option (List Char × List Char)) : List Char := (condition.map renderCondition).getD []

def renderInsert (table : List Char) (columns values : List (List Char)) : List Char :=
  "insert into ".toList ++ table ++ "(".toList ++ commas columns ++ ") values(".toList ++ commas (values.map ('?' :: ·)) ++ ")".toList

def renderUpdate (table : List Char) (sets : List (List Char × List Char)) : List Char :=
  "update ".toList ++ table ++ " set ".toList ++ commas (sets.map fun s => s.1 ++ "=?".toList ++ s.2)

def renderDelete (table : List Char) : List Char := "delete from ".toList ++ table

def renderSelect (table : List Char) : List Char := "select * from ".toList ++ table

def render : Statement → List Char
  | insert table columns values => renderInsert table columns values
  | update table sets condition => renderUpdate table sets ++ renderWhere condition
  | delete table condition => renderDelete table ++ renderWhere condition
  | select table condition => renderSelect table ++ renderWhere condition

@[simp] theorem render_insert (table : List Char) (columns values : List (List Char)) :
    (insert table columns values).render = renderInsert table columns values := rfl

@[simp] theorem render_update (table : List Char) (sets : List (List Char × List Char)) (condition : Option (List Char × List Char)) :
    (update table sets condition).render = renderUpdate table sets ++ renderWhere condition := rfl

@[simp] theorem render_delete (table : List Char) (condition : Option (List Char × List Char)) :
    (delete table condition).render = renderDelete table ++ renderWhere condition := rfl

@[simp] theorem render_select (table : List Char) (condition : Option (List Char × List Char)) :
    (select table condition).render = renderSelect table ++ renderWhere condition := rfl

@[simp] theorem renderWhere_none : renderWhere none = [] := rfl

@[simp] theorem renderWhere_some (c : List Char × List Char) : renderWhere (some c) = renderCondition c := rfl

def NamedWhere (condition : Option (List Char × List Char)) : Prop :=
  ∀ c ∈ condition, Named c.1 ∧ Named c.2

def Valid : Statement → Prop
  | insert table columns values => Named table ∧ columns ≠ [] ∧ columns.length = values.length ∧
      (∀ c ∈ columns, Named c) ∧ ∀ v ∈ values, Named v
  | update table sets condition => Named table ∧ sets ≠ [] ∧ (∀ s ∈ sets, Named s.1 ∧ Named s.2) ∧ NamedWhere condition
  | delete table condition => Named table ∧ NamedWhere condition
  | select table condition => Named table ∧ NamedWhere condition

/-- The row, with its columns, is changed or deleted, if the placeholders have these values. -/
def Affects {V : Type} (values row : List Char → V) : Statement → Prop
  | insert .. => False
  | update _ _ condition => ∀ c ∈ condition, row c.1 = values c.2
  | delete _ condition => ∀ c ∈ condition, row c.1 = values c.2
  | select .. => False

end Statement

/-- The text is one of a comma-separated statement. -/
def WellFormed (sql : List Char) : Prop := ∃ s : Statement, s.Valid ∧ s.render = sql

/-- The names of the placeholders, as `PrepareQuery` finds them. -/
def placeholders (sql : List Char) : List (List Char) :=
  ((AnalyzeSql 0 none sql).map fun r => r.2.map Prod.fst).getD []

namespace Handler

/-- What is bound and what is waited for are the same. -/
def Bound (h : Handler) : Prop := ∀ name, name ∈ h.binds.map Bind.name ↔ name ∈ placeholders h.sql

structure Sound (h : Handler) : Prop where
  wellFormed : WellFormed h.sql
  bound : h.Bound
  passed : h.passed = true

/-- No other row is affected than the one whose key is the value that was notified. -/
def OnlyRow (h : Handler) (key : List Char) : Prop :=
  ∀ s : Statement, s.Valid → s.render = h.sql → ∀ notify row : List Char → Nat, s.Affects notify row → row key = notify key

end Handler

structure Consistent (item : DBItem) (fields : List ProtoField) : Prop where
  insert : (processInsert item fields).Sound
  update : (processUpdate item fields).Sound
  updateRow : (processUpdate item fields).OnlyRow item.primary_key
  delete : (processDelete item fields).Sound
  deleteRow : (processDelete item fields).OnlyRow item.primary_key
  request : (processRequest item).Sound

/-- The fields are of the supported types, the key is among them, and all names are names. -/
structure Entry (item : DBItem) (fields : List ProtoField) : Prop where
  table : Named item.table_name
  names : ∀ f ∈ fields, Named f.name
  supported : ∀ f ∈ fields, f.type ≠ .other
  key : ∃ f ∈ fields, f.name = item.primary_key

/-- The bind loops pass over a field of this name. -/
def Unbound (item : DBItem) (name : List Char) : Prop :=
  ∃ dbtype, item.dbtype.lookup name = some dbtype ∧ dbtype ≠ "datetime".toList

/-- What each handler gets right. -/
structure Exact (item : DBItem) (fields : List ProtoField) : Prop where
  insert : (processInsert item fields).Sound ↔ ∀ f ∈ fields, ¬ Unbound item f.name
  updateWellFormed : WellFormed (processUpdate item fields).sql ↔ ∀ f ∈ fields.getLast?, f.name ≠ item.primary_key
  updateBound : (processUpdate item fields).Bound ↔ ∀ f ∈ fields, f.name = item.primary_key ↔ Unbound item f.name
  /-- The statement changes every row of the table. -/
  updateWide : WellFormed (processUpdate item fields).sql → ¬ (processUpdate item fields).OnlyRow item.primary_key
  delete : (processDelete item fields).Sound ↔ ¬ Unbound item item.primary_key
  deleteRow : (processDelete item fields).OnlyRow item.primary_key
  request : WellFormed (processRequest item).sql ∧ (processRequest item).Bound ∧ (processRequest item).passed = false

section Texts

variable {item : DBItem} {fields : List ProtoField} {name key text text' rest : List Char} {c : Char} {f : ProtoField}
  {piece : ProtoField → List Char} {skip : ProtoField → Bool}

/-- The check that evaluates. -/
theorem named_of_all (filled : name ≠ []) (all : name.all (fun c => c.isAlphanum || c == '_') = true) : Named name := by
  refine ⟨filled, fun c mem => ?_⟩
  have here := List.all_eq_true.1 all c mem
  simpa using here

/-- A character that is no part of a name. -/
theorem Named.not_mem (named : Named name) (other : ¬ (c.isAlphanum ∨ c = '_')) : c ∉ name := by
  intro mem
  exact other (named.2 c mem)

/-! ### Placeholders -/

/-- The names of the placeholders in a text, the first of them with this number. -/
def names (index : Nat) (text : List Char) : Option (List (List Char)) :=
  (AnalyzeSql index none text).map fun r => r.2.map Prod.fst

theorem placeholders_eq (found : names 0 text = some l) : placeholders text = l := by
  obtain ⟨r, read, rfl⟩ := Option.map_eq_some_iff.1 found
  rw [placeholders, read]
  rfl

theorem names_plain (index : Nat) (plain : '?' ∉ text) : names index (text ++ rest) = names index rest := by
  induction text with
  | nil => rfl
  | cons c text ih =>
    obtain ⟨notHere, later⟩ := not_or.1 (mt List.mem_cons.2 plain)
    rw [← ih later, names, names, List.cons_append, AnalyzeSql, if_neg (Ne.symm notHere), Option.map_map]
    rfl

/-- What ends the name of a placeholder. -/
abbrev Ends (c : Char) : Prop := c = ',' ∨ c = ' ' ∨ c = ')'

theorem Named.not_ends (named : Named name) : ∀ c ∈ name, ¬ Ends c := by
  rintro c mem (rfl | rfl | rfl)
  · exact named.not_mem (by decide) mem
  · exact named.not_mem (by decide) mem
  · exact named.not_mem (by decide) mem

theorem analyze_name (index : Nat) (read : List Char) (within : ∀ c ∈ name, ¬ Ends c) :
    AnalyzeSql index (some read) (name ++ rest) = AnalyzeSql index (some (read ++ name)) rest := by
  induction name generalizing read with
  | nil => rw [List.nil_append, List.append_nil]
  | cons c name ih =>
    have later := ih (read ++ [c]) fun c mem => within c (List.mem_cons_of_mem _ mem)
    rw [List.cons_append, AnalyzeSql, if_neg (within c List.mem_cons_self), later, List.append_assoc]
    rfl

theorem names_placeholder (index : Nat) (named : Named name) (ends : Ends c) :
    names index ('?' :: (name ++ c :: rest)) = (names (index + 1) rest).map (name :: ·) := by
  rw [names, names, AnalyzeSql, if_pos rfl, analyze_name index [] named.not_ends, List.nil_append, AnalyzeSql, if_pos ends,
    if_neg named.1]
  simp [Option.map_map, Function.comp_def]

theorem names_last (index : Nat) (named : Named name) : names index ('?' :: name) = some [name] := by
  have whole : AnalyzeSql index (some []) (name ++ []) = AnalyzeSql index (some ([] ++ name)) [] :=
    analyze_name index [] named.not_ends
  rw [List.append_nil, List.nil_append] at whole
  rw [names, AnalyzeSql, if_pos rfl, whole, AnalyzeSql, if_neg named.1]
  rfl

/-! ### Pieces -/

@[simp] theorem pieces_single : pieces piece skip [f] = if skip f then [] else piece f := by
  simp [pieces]

theorem pieces_cons {g : ProtoField} : pieces piece skip (f :: g :: fields) =
    (if skip f then [] else piece f ++ [',']) ++ pieces piece skip (g :: fields) := by
  rw [pieces, if_neg (List.cons_ne_nil g fields)]

/-- Where the last field is written, the pieces are separated by commas. -/
theorem pieces_eq (last : ∀ f ∈ fields.getLast?, skip f = false) :
    pieces piece skip fields = Statement.commas ((fields.filter fun f => !skip f).map piece) := by
  induction fields with
  | nil => rfl
  | cons f fields ih =>
    cases fields with
    | nil =>
      have here := last f rfl
      simp [here, Statement.commas]
    | cons g fields =>
      have later := ih (by rwa [List.getLast?_cons_cons] at last)
      rw [pieces_cons, later]
      by_cases skipped : skip f = true
      · simp [skipped]
      · obtain ⟨h, at_last⟩ : ∃ h, (g :: fields).getLast? = some h := ⟨_, List.getLast?_cons⟩
        have written : h ∈ (g :: fields).filter fun f => !skip f := by
          have mem := List.mem_of_getLast? at_last
          have kept := last h (by rw [List.getLast?_cons_cons, at_last]; rfl)
          exact List.mem_filter.2 ⟨mem, by simp [kept]⟩
        obtain ⟨p, ps, filled⟩ := List.exists_cons_of_ne_nil (List.ne_nil_of_mem written)
        have both : (f :: g :: fields).filter (fun f => !skip f) = f :: (g :: fields).filter fun f => !skip f :=
          List.filter_cons_of_pos (by simpa using skipped)
        rw [both, filled]
        simp [skipped, Statement.commas]

theorem names_values (index : Nat) (named : ∀ f ∈ fields, Named f.name) (some' : fields ≠ []) (ends : Ends c) :
    ∃ index', names index (pieces (fun f => '?' :: f.name) (fun _ => false) fields ++ c :: rest) =
      (names index' rest).map (fields.map (·.name) ++ ·) := by
  induction fields generalizing index with
  | nil => exact absurd rfl some'
  | cons f fields ih =>
    have here := named f List.mem_cons_self
    cases fields with
    | nil =>
      refine ⟨index + 1, ?_⟩
      simp [names_placeholder index here ends]
    | cons g fields =>
      obtain ⟨index', later⟩ := ih (index + 1) (fun f mem => named f (List.mem_cons_of_mem _ mem)) (List.cons_ne_nil _ _)
      refine ⟨index', ?_⟩
      have first : names index ('?' :: (f.name ++ ',' :: (pieces (fun f => '?' :: f.name) (fun _ => false) (g :: fields) ++ c :: rest))) =
          (names (index + 1) (pieces (fun f => '?' :: f.name) (fun _ => false) (g :: fields) ++ c :: rest)).map (f.name :: ·) :=
        names_placeholder index here (.inl rfl)
      rw [pieces_cons]
      simp only [Bool.false_eq_true, if_false, List.cons_append, List.append_assoc, List.nil_append]
      rw [first, later, Option.map_map]
      rfl

theorem names_sets (index : Nat) (named : ∀ f ∈ fields, Named f.name) :
    names index (pieces (fun f => f.name ++ "=?".toList ++ f.name) skip fields) =
      some ((fields.filter fun f => !skip f).map (·.name)) := by
  have column : ∀ f ∈ fields, '?' ∉ f.name ++ ['='] := by
    intro f mem found
    rcases List.mem_append.1 found with found | found
    · exact (named f mem).not_mem (by decide) found
    · cases found with | tail _ found => cases found
  induction fields generalizing index with
  | nil => rfl
  | cons f fields ih =>
    have here := named f List.mem_cons_self
    have plain := column f List.mem_cons_self
    have later := fun index => ih index (fun f mem => named f (List.mem_cons_of_mem _ mem)) fun f mem => column f (List.mem_cons_of_mem _ mem)
    cases fields with
    | nil =>
      by_cases skipped : skip f = true
      · simp [skipped, names, AnalyzeSql]
      · have written : f.name ++ "=?".toList ++ f.name = (f.name ++ ['=']) ++ '?' :: f.name := by simp
        rw [pieces_single, if_neg skipped, written, names_plain index plain, names_last index here]
        simp [skipped]
    | cons g fields =>
      by_cases skipped : skip f = true
      · rw [pieces_cons, if_pos skipped, List.nil_append, later]
        simp [skipped]
      · have written : f.name ++ "=?".toList ++ f.name ++ [','] ++ pieces (fun f => f.name ++ "=?".toList ++ f.name) skip (g :: fields)
            = (f.name ++ ['=']) ++ '?' :: (f.name ++ ',' :: pieces (fun f => f.name ++ "=?".toList ++ f.name) skip (g :: fields)) := by simp
        rw [pieces_cons, if_neg skipped, written, names_plain index plain, names_placeholder index here (.inl rfl), later]
        simp [skipped]

theorem not_mem_pieces (outside : ∀ f ∈ fields, c ∉ piece f) (comma : c ≠ ',') : c ∉ pieces piece skip fields := by
  induction fields with
  | nil => exact List.not_mem_nil
  | cons f fields ih =>
    have later := ih fun f mem => outside f (List.mem_cons_of_mem _ mem)
    have here := outside f List.mem_cons_self
    rw [pieces]
    intro mem
    rcases List.mem_append.1 mem with mem | mem
    · split at mem
      · exact absurd mem List.not_mem_nil
      · rcases List.mem_append.1 mem with mem | mem
        · exact here mem
        · split at mem
          · exact absurd mem List.not_mem_nil
          · exact comma (List.mem_singleton.1 mem)
    · exact later mem

/-- After a last field that is skipped stands the comma of the one before, if there is one. -/
theorem pieces_skipped (last : ∀ f ∈ fields.getLast?, skip f = true) :
    pieces piece skip fields = [] ∨ (pieces piece skip fields).getLast? = some ',' := by
  induction fields with
  | nil => exact .inl rfl
  | cons f fields ih =>
    cases fields with
    | nil =>
      have here := last f rfl
      exact .inl (by rw [pieces_single, if_pos here])
    | cons g fields =>
      have later := ih (by rwa [List.getLast?_cons_cons] at last)
      rw [pieces_cons]
      rcases later with none' | comma
      · rw [none', List.append_nil]
        by_cases skipped : skip f = true
        · exact .inl (if_pos skipped)
        · exact .inr (by rw [if_neg skipped]; simp)
      · refine .inr ?_
        rw [List.getLast?_append, comma]
        rfl

/-! ### How statements end -/

/-- The text ends with a name or a parenthesis. -/
def Closed (text : List Char) : Prop := ∃ c, text.getLast? = some c ∧ (c.isAlphanum ∨ c = '_' ∨ c = ')')

theorem Closed.append (closed : Closed text') (text : List Char) : Closed (text ++ text') := by
  obtain ⟨c, last, good⟩ := closed
  refine ⟨c, ?_, good⟩
  rw [List.getLast?_append, last]
  rfl

theorem Named.closed (named : Named name) : Closed name := by
  have last := List.getLast?_eq_some_getLast named.1
  refine ⟨_, last, ?_⟩
  rcases named.2 _ (List.getLast_mem named.1) with alnum | underscore
  · exact .inl alnum
  · exact .inr (.inl underscore)

theorem closed_commas {l : List (List Char)} (some' : l ≠ []) (closed : ∀ t ∈ l, Closed t) : Closed (Statement.commas l) := by
  induction l with
  | nil => exact absurd rfl some'
  | cons t l ih =>
    cases l with
    | nil => simpa [Statement.commas] using closed t List.mem_cons_self
    | cons u l =>
      have later := ih (List.cons_ne_nil _ _) fun t mem => closed t (List.mem_cons_of_mem _ mem)
      have whole : Statement.commas (t :: u :: l) = (t ++ [',']) ++ Statement.commas (u :: l) := by simp [Statement.commas]
      rw [whole]
      exact later.append _

theorem closed_where {condition : Option (List Char × List Char)} (named : Statement.NamedWhere condition) (closed : Closed text) :
    Closed (text ++ Statement.renderWhere condition) := by
  cases condition with
  | none =>
    have same : text ++ Statement.renderWhere none = text := List.append_nil text
    rwa [same]
  | some c =>
    have value := (named c rfl).2.closed
    exact (value.append _).append _

theorem closed_render {s : Statement} (valid : s.Valid) : Closed s.render := by
  cases s with
  | insert table columns values =>
    have last : Closed ")".toList := ⟨')', by simp, .inr (.inr rfl)⟩
    exact last.append _
  | update table sets condition =>
    obtain ⟨-, some', named, namedWhere⟩ := valid
    refine closed_where namedWhere (Closed.append (closed_commas (by simpa using some') ?_) _)
    intro t written
    obtain ⟨s, mem, rfl⟩ := List.mem_map.1 written
    exact (named s mem).2.closed.append _
  | delete table condition => exact closed_where valid.2 (valid.1.closed.append _)
  | select table condition => exact closed_where valid.2 (valid.1.closed.append _)

/-! ### The four handlers -/

theorem bindOf_unbound (unbound : Unbound item f.name) : bindOf item f = none := by
  obtain ⟨dbtype, found, other⟩ := unbound
  rw [bindOf, found]
  exact if_neg other

theorem bindOf_bound (bound : ¬ Unbound item f.name) (supported : f.type ≠ .other) : ∃ b, bindOf item f = some b ∧ b.name = f.name := by
  unfold bindOf
  split
  next dbtype found =>
    have datetime : dbtype = "datetime".toList := by
      by_contra other
      exact bound ⟨dbtype, found, other⟩
    rw [if_pos datetime]
    exact ⟨_, rfl, rfl⟩
  next => split <;> first | exact ⟨_, rfl, rfl⟩ | contradiction

theorem mem_binds (supported : ∀ f ∈ fields, f.type ≠ .other) :
    name ∈ (fields.filterMap (bindOf item)).map Bind.name ↔ name ∈ fields.map (·.name) ∧ ¬ Unbound item name := by
  constructor
  · intro bound
    obtain ⟨b, listed, rfl⟩ := List.mem_map.1 bound
    obtain ⟨f, mem, here⟩ := List.mem_filterMap.1 listed
    have bound : ¬ Unbound item f.name := by
      intro unbound
      rw [bindOf_unbound unbound] at here
      cases here
    obtain ⟨b', here', named⟩ := bindOf_bound bound (supported f mem)
    rw [here] at here'
    cases here'
    rw [named]
    exact ⟨List.mem_map_of_mem mem, bound⟩
  · rintro ⟨listed, bound⟩
    obtain ⟨f, mem, rfl⟩ := List.mem_map.1 listed
    obtain ⟨b, here, named⟩ := bindOf_bound bound (supported f mem)
    exact List.mem_map.2 ⟨b, List.mem_filterMap.2 ⟨f, mem, here⟩, named⟩

theorem insert_wellFormed (entry : Entry item fields) : WellFormed (processInsert item fields).sql := by
  obtain ⟨f, mem, -⟩ := entry.key
  have some' : fields ≠ [] := List.ne_nil_of_mem mem
  have named : ∀ n ∈ fields.map (·.name), Named n := fun n listed => by
    obtain ⟨f, mem, rfl⟩ := List.mem_map.1 listed
    exact entry.names f mem
  refine ⟨.insert item.table_name (fields.map (·.name)) (fields.map (·.name)), ⟨entry.table, by simpa using some', rfl, named, named⟩, ?_⟩
  have columns : pieces (·.name) (fun _ => false) fields = Statement.commas (fields.map (·.name)) := by
    simpa using pieces_eq fun _ _ => rfl
  have values : pieces (fun f => '?' :: f.name) (fun _ => false) fields = Statement.commas ((fields.map (·.name)).map ('?' :: ·)) := by
    simpa [Function.comp_def] using pieces_eq fun _ _ => rfl
  unfold processInsert
  dsimp only
  rw [columns, values]
  rfl

theorem insert_placeholders (entry : Entry item fields) : placeholders (processInsert item fields).sql = fields.map (·.name) := by
  obtain ⟨f, mem, -⟩ := entry.key
  have some' : fields ≠ [] := List.ne_nil_of_mem mem
  have plain : '?' ∉ "insert into ".toList ++ item.table_name ++ "(".toList ++ pieces (·.name) (fun _ => false) fields ++ ") values(".toList := by
    have table := entry.table.not_mem (c := '?') (by decide)
    have columns : '?' ∉ pieces (·.name) (fun _ => false) fields :=
      not_mem_pieces (fun f mem => (entry.names f mem).not_mem (by decide)) (by decide)
    simp [table, columns]
  obtain ⟨index, found⟩ := names_values (c := ')') 0 entry.names some' (.inr (.inr rfl))
  apply placeholders_eq
  simp only [processInsert]
  rw [List.append_assoc, names_plain 0 plain]
  refine found.trans ?_
  simp [names, AnalyzeSql]

theorem update_placeholders (entry : Entry item fields) :
    placeholders (processUpdate item fields).sql = (fields.filter fun f => f.name ≠ item.primary_key).map (·.name) := by
  have plain : '?' ∉ "update ".toList ++ item.table_name ++ " set ".toList := by
    have table := entry.table.not_mem (c := '?') (by decide)
    simp [table]
  apply placeholders_eq
  simp only [processUpdate]
  rw [names_plain 0 plain, names_sets 0 entry.names]
  simp

/-- The statement of a well-formed update: it has no condition. -/
theorem update_statement (entry : Entry item fields) (last : ∀ f ∈ fields.getLast?, f.name ≠ item.primary_key) :
    ∃ sets, (Statement.update item.table_name sets none).Valid ∧
      (Statement.update item.table_name sets none).render = (processUpdate item fields).sql := by
  obtain ⟨f, mem, -⟩ := entry.key
  obtain ⟨g, at_last⟩ : ∃ g, fields.getLast? = some g := by
    cases fields with
    | nil => cases mem
    | cons f fields => exact ⟨_, List.getLast?_cons⟩
  have kept : g ∈ fields.filter fun f => !decide (f.name = item.primary_key) :=
    List.mem_filter.2 ⟨List.mem_of_getLast? at_last, by simpa using last g at_last⟩
  refine ⟨(fields.filter fun f => !decide (f.name = item.primary_key)).map fun f => (f.name, f.name), ⟨entry.table, ?_, ?_, ?_⟩, ?_⟩
  · simpa using List.ne_nil_of_mem kept
  · intro s listed
    obtain ⟨f, mem, rfl⟩ := List.mem_map.1 listed
    have here := entry.names f (List.mem_of_mem_filter mem)
    exact ⟨here, here⟩
  · intro c none'
    cases none'
  · have sets : pieces (fun f => f.name ++ "=?".toList ++ f.name) (fun f => decide (f.name = item.primary_key)) fields =
        Statement.commas (((fields.filter fun f => !decide (f.name = item.primary_key)).map fun f => (f.name, f.name)).map
          fun s => s.1 ++ "=?".toList ++ s.2) := by
      rw [pieces_eq fun f mem => by simpa using last f mem, List.map_map]
      rfl
    rw [Statement.render_update, Statement.renderWhere_none, List.append_nil]
    unfold processUpdate
    dsimp only
    rw [sets]
    rfl

theorem update_wellFormed (entry : Entry item fields) :
    WellFormed (processUpdate item fields).sql ↔ ∀ f ∈ fields.getLast?, f.name ≠ item.primary_key := by
  constructor
  · rintro ⟨s, valid, same⟩ f last isKey
    obtain ⟨c, ends, good⟩ := closed_render valid
    have skipped : ∀ f ∈ fields.getLast?, decide (f.name = item.primary_key) = true := by
      intro g last'
      rw [Option.mem_def.1 last] at last'
      cases last'
      exact decide_eq_true isKey
    rw [same] at ends
    simp only [processUpdate] at ends
    rw [List.getLast?_append] at ends
    rcases pieces_skipped skipped with none' | comma
    · rw [none', List.getLast?_append] at ends
      obtain rfl : c = ' ' := by simpa using ends.symm
      revert good
      decide
    · rw [comma] at ends
      obtain rfl : c = ',' := by simpa using ends.symm
      revert good
      decide
  · intro last
    obtain ⟨sets, valid, same⟩ := update_statement entry last
    exact ⟨_, valid, same⟩

theorem update_bound (entry : Entry item fields) :
    (processUpdate item fields).Bound ↔ ∀ f ∈ fields, f.name = item.primary_key ↔ Unbound item f.name := by
  have bound : ∀ name, name ∈ (processUpdate item fields).binds.map Bind.name ↔ name ∈ fields.map (·.name) ∧ ¬ Unbound item name :=
    fun name => mem_binds entry.supported
  have placed : ∀ name, name ∈ placeholders (processUpdate item fields).sql ↔ name ∈ fields.map (·.name) ∧ name ≠ item.primary_key := by
    intro name
    rw [update_placeholders entry]
    simp only [List.mem_map, List.mem_filter, decide_eq_true_eq]
    constructor
    · rintro ⟨f, ⟨mem, other⟩, rfl⟩
      exact ⟨⟨f, mem, rfl⟩, other⟩
    · rintro ⟨⟨f, mem, rfl⟩, other⟩
      exact ⟨f, ⟨mem, other⟩, rfl⟩
  constructor
  · intro same f mem
    have listed : f.name ∈ fields.map (·.name) := List.mem_map_of_mem mem
    have here := same f.name
    rw [bound, placed, and_iff_right listed, and_iff_right listed] at here
    exact not_iff_not.1 here.symm
  · intro exact' name
    rw [bound, placed]
    refine and_congr_right fun listed => ?_
    obtain ⟨f, mem, rfl⟩ := List.mem_map.1 listed
    exact not_congr (exact' f mem).symm

theorem update_wide (entry : Entry item fields) (wellFormed : WellFormed (processUpdate item fields).sql) :
    ¬ (processUpdate item fields).OnlyRow item.primary_key := by
  intro only
  obtain ⟨sets, valid, same⟩ := update_statement entry ((update_wellFormed entry).1 wellFormed)
  have other := only _ valid same (fun _ => 0) (fun _ => 1) (by rintro c ⟨⟩)
  cases other

theorem Entry.primary_key (entry : Entry item fields) : Named item.primary_key := by
  obtain ⟨f, mem, isKey⟩ := entry.key
  exact isKey ▸ entry.names f mem

theorem delete_text : (processDelete item fields).sql = Statement.renderDelete item.table_name ++
    (" where ".toList ++ (item.primary_key ++ (" = ".toList ++ '?' :: item.primary_key))) := by
  unfold Statement.renderDelete
  simp [processDelete]

theorem condition_text (name key : List Char) :
    Statement.renderCondition (name, key) = " where ".toList ++ (name ++ (" = ".toList ++ '?' :: key)) := by
  unfold Statement.renderCondition
  simp

theorem delete_wellFormed (entry : Entry item fields) : WellFormed (processDelete item fields).sql := by
  have key := entry.primary_key
  refine ⟨.delete item.table_name (some (item.primary_key, item.primary_key)), ⟨entry.table, ?_⟩, ?_⟩
  · intro c here
    cases here
    exact ⟨key, key⟩
  · rw [Statement.render_delete, Statement.renderWhere_some, delete_text, condition_text]

theorem delete_placeholders (entry : Entry item fields) : placeholders (processDelete item fields).sql = [item.primary_key] := by
  have key := entry.primary_key
  have plain : '?' ∉ Statement.renderDelete item.table_name ++ (" where ".toList ++ (item.primary_key ++ " = ".toList)) := by
    have table := entry.table.not_mem (c := '?') (by decide)
    have column := key.not_mem (c := '?') (by decide)
    unfold Statement.renderDelete
    simp [table, column]
  have whole : (processDelete item fields).sql =
      (Statement.renderDelete item.table_name ++ (" where ".toList ++ (item.primary_key ++ " = ".toList))) ++ '?' :: item.primary_key := by
    rw [delete_text]
    simp only [List.append_assoc]
  apply placeholders_eq
  rw [whole, names_plain 0 plain, names_last 0 key]

theorem delete_bound (entry : Entry item fields) : (processDelete item fields).Bound ↔ ¬ Unbound item item.primary_key := by
  have supported : ∀ f ∈ fields.filter fun f => f.name = item.primary_key, f.type ≠ .other := fun f mem =>
    entry.supported f (List.mem_of_mem_filter mem)
  have bound : ∀ name, name ∈ (processDelete item fields).binds.map Bind.name ↔ name = item.primary_key ∧ ¬ Unbound item name := by
    intro name
    refine (mem_binds supported).trans (and_congr_left fun _ => ?_)
    constructor
    · intro listed
      obtain ⟨f, mem, rfl⟩ := List.mem_map.1 listed
      simpa using (List.mem_filter.1 mem).2
    · rintro rfl
      obtain ⟨f, mem, isKey⟩ := entry.key
      exact List.mem_map.2 ⟨f, List.mem_filter.2 ⟨mem, by simpa using isKey⟩, isKey⟩
  unfold Handler.Bound
  simp only [bound, delete_placeholders entry, List.mem_singleton]
  constructor
  · intro same
    exact ((same item.primary_key).2 rfl).2
  · intro loaded name
    exact ⟨fun both => both.1, fun isKey => ⟨isKey, isKey ▸ loaded⟩⟩

/-- Two texts that go on after the first `c` in each. -/
theorem append_cons_inj {a b x y : List Char} (notA : c ∉ a) (notB : c ∉ b) (same : a ++ c :: x = b ++ c :: y) : a = b ∧ x = y := by
  induction a generalizing b with
  | nil =>
    cases b with
    | nil => exact ⟨rfl, (List.cons.inj same).2⟩
    | cons d b =>
      obtain ⟨rfl, -⟩ := List.cons.inj same
      exact absurd List.mem_cons_self notB
  | cons e a ih =>
    cases b with
    | nil =>
      obtain ⟨rfl, -⟩ := List.cons.inj same
      exact absurd List.mem_cons_self notA
    | cons d b =>
      obtain ⟨rfl, later⟩ := List.cons.inj same
      obtain ⟨rfl, rest⟩ := ih (mt (List.mem_cons_of_mem _) notA) (mt (List.mem_cons_of_mem _) notB) later
      exact ⟨rfl, rest⟩

theorem where_text : (" where ".toList ++ text) = ' ' :: ("where ".toList ++ text) := by simp

theorem equals_text : (" = ".toList ++ text) = ' ' :: ("= ".toList ++ text) := by simp

/-- The text of the delete statement can be read in one way only. -/
theorem delete_row (entry : Entry item fields) : (processDelete item fields).OnlyRow item.primary_key := by
  have table := entry.table.not_mem (c := ' ') (by decide)
  have key := entry.primary_key.not_mem (c := ' ') (by decide)
  intro s valid same notify row affects
  cases s with
  | insert => exact affects.elim
  | select => exact affects.elim
  | update table' sets condition =>
    rw [Statement.render_update, delete_text] at same
    unfold Statement.renderUpdate Statement.renderDelete at same
    simp at same
  | delete table' condition =>
    rw [Statement.render_delete, delete_text] at same
    unfold Statement.renderDelete at same
    rw [List.append_assoc, List.append_assoc, List.append_cancel_left_eq, where_text] at same
    have table'' := valid.1.not_mem (c := ' ') (by decide)
    cases condition with
    | none =>
      rw [Statement.renderWhere_none, List.append_nil] at same
      refine absurd ?_ table''
      rw [same]
      exact List.mem_append_right _ List.mem_cons_self
    | some c =>
      obtain ⟨column, value⟩ := c
      have column' := (valid.2 _ rfl).1.not_mem (c := ' ') (by decide)
      rw [Statement.renderWhere_some, condition_text, where_text] at same
      obtain ⟨-, behind⟩ := append_cons_inj table'' table same
      rw [List.append_cancel_left_eq, equals_text, equals_text] at behind
      obtain ⟨rfl, last⟩ := append_cons_inj column' key behind
      rw [List.append_cancel_left_eq] at last
      obtain rfl := (List.cons.inj last).2
      exact affects _ rfl

theorem request_spec (entry : Entry item fields) : WellFormed (processRequest item).sql ∧ (processRequest item).Bound := by
  have playerid : Named "playerid".toList := named_of_all (by simp) (by decide)
  have plain : '?' ∉ "select * from ".toList ++ item.table_name ++ " where playerid = ".toList := by
    have table := entry.table.not_mem (c := '?') (by decide)
    simp [table]
  have whole : (processRequest item).sql = ("select * from ".toList ++ item.table_name ++ " where playerid = ".toList) ++ '?' :: "playerid".toList := by
    simp [processRequest]
  refine ⟨⟨.select item.table_name (some ("playerid".toList, "playerid".toList)), ⟨entry.table, ?_⟩, ?_⟩, ?_⟩
  · intro c here
    cases here
    exact ⟨playerid, playerid⟩
  · rw [Statement.render_select, Statement.renderWhere_some, condition_text, whole]
    unfold Statement.renderSelect
    simp
  · have found : placeholders (processRequest item).sql = ["playerid".toList] := by
      apply placeholders_eq
      rw [whole, names_plain 0 plain, names_last 0 playerid]
    intro name
    rw [found]
    rfl

theorem Exact.of_entry (entry : Entry item fields) : Exact item fields where
  insert := by
    have bound : (processInsert item fields).Bound ↔ ∀ f ∈ fields, ¬ Unbound item f.name := by
      have binds : ∀ name, name ∈ (processInsert item fields).binds.map Bind.name ↔ name ∈ fields.map (·.name) ∧ ¬ Unbound item name :=
        fun name => mem_binds entry.supported
      unfold Handler.Bound
      simp only [binds, insert_placeholders entry, and_iff_left_iff_imp, List.mem_map, forall_exists_index, and_imp]
      exact ⟨fun all f mem => all f.name f mem rfl, fun all name f mem same => same ▸ all f mem⟩
    exact ⟨fun sound => bound.1 sound.bound, fun all => ⟨insert_wellFormed entry, bound.2 all, rfl⟩⟩
  updateWellFormed := update_wellFormed entry
  updateBound := update_bound entry
  updateWide := update_wide entry
  delete := ⟨fun sound => (delete_bound entry).1 sound.bound,
    fun loaded => ⟨delete_wellFormed entry, (delete_bound entry).2 loaded, rfl⟩⟩
  deleteRow := delete_row entry
  request := ⟨(request_spec entry).1, (request_spec entry).2, rfl⟩

end Texts

/-- **The handlers are never consistent.** Whatever the item and the fields are, one of the four is wrong. Where the
names are names and the types are supported, `processRequest` has a well-formed text and binds its placeholder, and then
passes `nullptr`; `processUpdate` changes every row; and the other two are right unless a field has a `dbtype` that the
generator does not know. -/
theorem handlers_inconsistent (item : DBItem) (fields : List ProtoField) :
    ¬ Consistent item fields ∧ (Entry item fields → Exact item fields) := by
  refine ⟨?_, Exact.of_entry⟩
  intro consistent
  cases consistent.request.passed

/-- A key of type `int32` and a date. -/
def player : DBItem := ⟨"t".toList, "p".toList, "id".toList, [("at".toList, "datetime".toList)], "q".toList⟩

def playerFields : List ProtoField := [⟨"id".toList, .int32⟩, ⟨"at".toList, .string⟩]

theorem player_entry : Entry player playerFields := by
  refine ⟨named_of_all (by decide) (by decide), ?_, by decide, by decide⟩
  intro f mem
  rcases List.mem_pair.1 mem with rfl | rfl
  · exact named_of_all (by decide) (by decide)
  · exact named_of_all (by decide) (by decide)

theorem handlers_inconsistent_player : (processInsert player playerFields).sql = "insert into t(id,at) values(?id,?at)".toList ∧
    (processUpdate player playerFields).sql = "update t set at=?at".toList ∧
    (processDelete player playerFields).sql = "delete from t where id = ?id".toList ∧
    ¬ Consistent player playerFields ∧ Exact player playerFields := by
  refine ⟨by decide, by decide, by decide, ?_, ?_⟩
  · exact (handlers_inconsistent player playerFields).1
  · exact (handlers_inconsistent player playerFields).2 player_entry

/-- The statement for one player's row changes them all, and the request goes out without its parameter. -/
theorem player_inconsistent : Entry player playerFields ∧ WellFormed (processUpdate player playerFields).sql ∧
    ¬ (processUpdate player playerFields).OnlyRow player.primary_key ∧ (processRequest player).passed = false ∧
    ¬ Consistent player playerFields := by
  have wellFormed : WellFormed (processUpdate player playerFields).sql := by
    rw [update_wellFormed player_entry]
    decide
  have wide := update_wide player_entry wellFormed
  exact ⟨player_entry, wellFormed, wide, rfl, fun consistent => wide consistent.updateRow⟩

end GameServer.Tools

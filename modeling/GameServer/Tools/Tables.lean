import GameServer.Lib.Nested
import GameServer.Lib.Run
import Mathlib.Data.List.Nodup

/-!
# Generated table classes

`loadclasses` reads the fields of a class and sorts those with a `key` into groups; `writetable_param`,
`writetable_load` and `writetable_get` write the nested maps of the groups, the lines of `Load()` that fill them
and the functions `Get1`, `Get2`, … that look rows up. The text they write is kept here as lines with their parts,
and `runLine` and `Get` say what it does.

The numbers of the maps do not agree: `writetable_load` does not count a group of one field. `load_finds` says for
which classes every row is found.
-/

namespace GameServer.Tools

open GameServer.Lib

structure ClassParam where
  type : String
  name : String
  key : Int
  keyindex : Int
  istimedate : Int
  deriving DecidableEq, Repr

/-- The type of a map, `std::map<key, value>`, or that of a pointer to a row. -/
inductive MapType where
  | row
  | map (key : String) (value : MapType)
  deriving DecidableEq, Repr

/-- The key groups are maps sorted by their `key`, and a group is a set sorted by `keyindex`. -/
structure ClassItem where
  params : List ClassParam
  keygroup : List (Int × List ClassParam)
  keygroupname : List (Int × List MapType)
  deriving DecidableEq, Repr

/-- `insert` of a set; `none` where an element with this `keyindex` is there. -/
def insertParam (temp : ClassParam) : List ClassParam → Option (List ClassParam)
  | [] => some [temp]
  | p :: group =>
    if temp.keyindex < p.keyindex then some (temp :: p :: group)
    else if p.keyindex < temp.keyindex then (insertParam temp group).map (p :: ·)
    else none

/-- `operator[]` of a sorted map, and the assignment. -/
def assign {α : Type} (key : Int) (a : α) : List (Int × α) → List (Int × α)
  | [] => [(key, a)]
  | e :: rest => if key < e.1 then (key, a) :: e :: rest else if e.1 < key then e :: assign key a rest else (key, a) :: rest

/-- The loop over a group from its end: the type of each suffix of the group. -/
def typeNames (group : List ClassParam) : List MapType :=
  group.reverse.foldl (fun keyname p => keyname ++ [.map p.type (keyname.getLast?.getD .row)]) []

/-- One field of `loadclasses`; the numbers are those that were read from its attributes. -/
def loadField (item : ClassItem) (field : ClassParam) : Option ClassItem :=
  let temp := { field with type := if field.type = "string" ∨ field.type = "std::string" then "xstring" else field.type }
  if temp.type = "" ∨ temp.name = "" then none
  else
    let item := { item with params := item.params ++ [temp] }
    if 0 < temp.key then
      (insertParam temp ((item.keygroup.lookup temp.key).getD [])).map fun keyindex =>
        { item with
          keygroup := assign temp.key keyindex item.keygroup
          keygroupname := assign temp.key (typeNames keyindex) item.keygroupname }
    else some item

def loadclasses (fields : List ClassParam) : Option ClassItem := fields.foldlM loadField ⟨[], [], []⟩

/-! ## What is written -/

/-- `writetable_param`: the types of `mappings_1`, `mappings_2`, … -/
def writetable_param (item : ClassItem) : List MapType := item.keygroupname.map fun e => e.2.getLast?.getD .row

/-- `mappings_n`, or `it->second`. -/
inductive Base where
  | mappings (n : Nat)
  | second (it : String)
  deriving DecidableEq, Repr

inductive LoadLine where
  /-- `base[temp->field] = temp;` -/
  | assign (base : Base) (field : ClassParam)
  /-- `auto it = base.find(temp->field);`, and where that is `base.end()` an entry is made and found. -/
  | find (it : String) (base : Base) (field : ClassParam)
  deriving DecidableEq, Repr

def map_tempit (tttt count : Nat) : String := "map_tempit" ++ toString tttt ++ toString count

/-- The inner loop of `writetable_load`, at the field `f`. -/
def writeNext (tttt : Nat) : Nat → ClassParam → List ClassParam → List LoadLine
  | count, f, [] => [.assign (.second (map_tempit tttt count)) f]
  | count, f, g :: group =>
    .find (map_tempit tttt (count - 1)) (.second (map_tempit tttt count)) f :: writeNext tttt (count - 1) g group

/-- The loop of `writetable_load` over the key groups. -/
def writeGroups (item : ClassItem) : Nat → List (Int × List ClassParam) → List LoadLine
  | _, [] => []
  | tttt, (_, []) :: rest => writeGroups item tttt rest
  | tttt, (_, [f]) :: rest => .assign (.mappings tttt) f :: writeGroups item tttt rest
  | tttt, (key, f :: g :: group) :: rest =>
    let count := ((item.keygroupname.lookup key).getD []).length - 1
    .find (map_tempit tttt count) (.mappings tttt) f :: (writeNext tttt count g group ++ writeGroups item (tttt + 1) rest)

def writetable_load (item : ClassItem) : List LoadLine := writeGroups item 1 item.keygroup

/-- `ret* Getn(params)`. It looks in `mappings_n`, or in what `Getn` of the parameters before the last one returns, for
the last one; `whole` tells `it->second` from `&it->second`. -/
structure Getter where
  number : Nat
  ret : MapType
  params : List ClassParam
  whole : Bool
  deriving DecidableEq, Repr

def writeGetters (item : ClassItem) : Nat → List (Int × List ClassParam) → List Getter
  | _, [] => []
  | ccc, (key, group) :: rest =>
    let temp := (item.keygroupname.lookup key).getD []
    ((List.range' 1 group.length).map fun count =>
      ⟨ccc, if 0 < temp.length - count then temp.getD (temp.length - count - 1) .row else .row, group.take count,
        count = group.length⟩) ++ writeGetters item (ccc + 1) rest

def writetable_get (item : ClassItem) : List Getter := writeGetters item 1 item.keygroup

/-! ## What it does -/

inductive Value where
  | int (v : Int)
  | str (s : String)
  deriving DecidableEq, Repr

/-- A map from keys to pointers to rows, at several levels. Rows are counted as they are made. -/
abbrev Mapping := Nested Value (Option Nat)

/-- A value made by `operator[]`. -/
def MapType.default : MapType → Mapping
  | .row => .leaf none
  | .map _ _ => .empty

/-- The type behind so many keys. -/
def MapType.under : MapType → Nat → Option MapType
  | t, 0 => some t
  | .row, _ + 1 => none
  | .map _ value, n + 1 => value.under n

/-- The members `mappings_n` with their types. -/
abbrev Store := Nat → Option (MapType × Mapping)

/-- An iterator: the entry at a path of `mappings_number`. -/
structure Place where
  number : Nat
  path : List Value
  deriving DecidableEq, Repr

abbrev Env := List (String × Place)

def Base.place (env : Env) : Base → Option Place
  | .mappings n => some ⟨n, []⟩
  | .second it => env.lookup it

/-- One line of `Load()` for the row `temp`. `none`: the text does not compile, as a name is declared twice or a map
is used with keys or values of another type. (Keys of two integer types would be converted.) -/
def runLine (temp : String → Value) (self : Nat) (s : Store × Env) : LoadLine → Option (Store × Env)
  | .assign base f =>
    (base.place s.2).bind fun place => (s.1 place.number).bind fun m =>
      if m.1.under place.path.length = some (.map f.type .row) then
        (m.2.put place.path (temp f.name) (.leaf (some self))).map fun nested =>
          (Function.update s.1 place.number (some (m.1, nested)), s.2)
      else none
  | .find it base f =>
    if (s.2.lookup it).isSome then none
    else
      (base.place s.2).bind fun place => (s.1 place.number).bind fun m =>
        match m.1.under place.path.length with
        | some (.map key value) =>
          if key = f.type then
            (if (m.2.look (place.path ++ [temp f.name])).isSome then some m.2
              else m.2.put place.path (temp f.name) value.default).map fun nested =>
                (Function.update s.1 place.number (some (m.1, nested)), (it, ⟨place.number, place.path ++ [temp f.name]⟩) :: s.2)
          else none
        | _ => none

/-- A row of the result: what the getter of each column's type answers. -/
abbrev Row := String → Value

/-- `Load()` reads members of these types. -/
abbrev ClassParam.Read (p : ClassParam) : Prop := p.type = "int32" ∨ p.type = "xstring" ∨ p.type = "int64"

/-- The new object of a row: the other members keep what was in their memory. -/
def readRow (item : ClassItem) (row : Row) (memory : String → Value) : String → Value :=
  item.params.foldl (fun temp p => if p.Read then Function.update temp p.name (row p.name) else temp) memory

/-- The body of the loop of `Load()`. -/
def loadRow (item : ClassItem) (memory : String → Value) (row : Row) (self : Nat) (store : Store) : Option Store :=
  ((writetable_load item).foldlM (runLine (readRow item row memory) self) (store, [])).map Prod.fst

def loadRows (item : ClassItem) (memory : Nat → String → Value) : Nat → List Row → Store → Option Store
  | _, [], store => some store
  | self, row :: rows, store => (loadRow item (memory self) row self store).bind (loadRows item memory (self + 1) rows)

/-- The members of a new table. -/
def declared (item : ClassItem) : Store
  | 0 => none
  | n + 1 => (writetable_param item)[n]?.map fun t => (t, t.default)

/-- `Load()`; `none` also where the class declares a member twice. -/
def Load (item : ClassItem) (memory : Nat → String → Value) (rows : List Row) : Option Store :=
  if (item.params.map ClassParam.name).Nodup then loadRows item memory 0 rows (declared item) else none

/-- What a getter returns. -/
inductive Ptr where
  | null
  | to (type : MapType) (target : Mapping)

/-- The row a pointer points to. -/
def Ptr.row : Ptr → Option Nat
  | .to _ (.leaf r) => r
  | _ => none

/-- `Getn` of the first arguments; of none at all it is `&mappings_n`. -/
def Get (item : ClassItem) (store : Store) (number : Nat) (args : List Value) : Nat → Option Ptr
  | 0 => (store number).map fun m => .to m.1 m.2
  | count + 1 =>
    ((writetable_get item).find? fun g => g.number = number ∧ g.params.length = count + 1).bind fun g =>
      (Get item store number args count).bind fun pData =>
        match pData, args[count]?, g.params[count]? with
        | .null, _, _ => some .null
        | .to (.map key value) target, some arg, some p =>
          if key = p.type ∧ value = g.ret ∧ (g.whole = true ↔ value = .row) then
            some (match target.find arg with | none => .null | some t => .to value t)
          else none
        | _, _, _ => none

/-! ## The contract -/

/-- The groups, in the order of their keys. -/
def ClassItem.groups (item : ClassItem) : List (List ClassParam) := item.keygroup.map Prod.snd

def keysOf (group : List ClassParam) (row : String → Value) : List Value := group.map fun p => row p.name

/-- **After `Load()` every full-arity getter finds every row**, whatever was in the memory of the new rows. -/
def Finds (item : ClassItem) : Prop :=
  ∀ (memory : Nat → String → Value) (rows : List Row), (∀ group ∈ item.groups, (rows.map (keysOf group)).Nodup) →
    ∃ store, Load item memory rows = some store ∧
      ∀ (k : Nat) (group : List ClassParam), item.groups[k]? = some group → ∀ (i : Nat) (row : Row), rows[i]? = some row →
        (Get item store (k + 1) (keysOf group row) group.length).bind Ptr.row = some i

/-- The names of the iterators of a group, which only a group of more than one field has. -/
def iterators (tttt : Nat) (group : List ClassParam) : List String :=
  (List.range' 1 (group.length - 1)).reverse.map (map_tempit tttt)

/-- The classes that are served. -/
structure Served (item : ClassItem) : Prop where
  names : (item.params.map ClassParam.name).Nodup
  /-- All groups but the last one have more than one field. -/
  multi : ∀ group ∈ item.groups.dropLast, 2 ≤ group.length
  iterators : (item.groups.mapIdx fun k group => iterators (k + 1) group).flatten.Nodup
  loaded : ∀ group ∈ item.groups, ∀ p ∈ group, p.Read

section Items

variable {item item' : ClassItem} {fields : List ClassParam} {field p f : ClassParam} {group group' : List ClassParam} {key : Int}

/-! ## Accepted classes -/

/-- The type of a group's map. -/
def nest (group : List ClassParam) : MapType := group.foldr (fun p t => .map p.type t) .row

theorem typeNames_cons : typeNames (p :: group) = typeNames group ++ [.map p.type ((typeNames group).getLast?.getD .row)] := by
  simp [typeNames]

theorem length_typeNames : (typeNames group).length = group.length := by
  induction group with
  | nil => rfl
  | cons p group ih => simp [typeNames_cons, ih]

theorem getLast_typeNames : (typeNames group).getLast?.getD .row = nest group := by
  induction group with
  | nil => rfl
  | cons p group ih => simp [typeNames_cons, ih, nest]

/-- The types of the inner maps stand in front of that of the whole. -/
theorem getElem_typeNames {count : Nat} (lt : count < group.length) :
    (typeNames group)[group.length - count - 1]? = some (nest (group.drop count)) := by
  induction group generalizing count with
  | nil => simp at lt
  | cons p group ih =>
    rw [typeNames_cons, getLast_typeNames]
    cases count with
    | zero =>
      have last : (p :: group).length - 0 - 1 = (typeNames group).length := by rw [length_typeNames]; rfl
      rw [last, List.getElem?_append_right le_rfl]
      simp [nest]
    | succ count =>
      have lt' : count < group.length := Nat.lt_of_succ_lt_succ lt
      have same : (p :: group).length - (count + 1) - 1 = group.length - count - 1 := by simp
      rw [same, List.getElem?_append_left (by rw [length_typeNames]; omega), ih lt', List.drop_succ_cons]

theorem mem_insertParam (inserted : insertParam field group = some group') : ∀ p, p ∈ group' ↔ p = field ∨ p ∈ group := by
  induction group generalizing group' with
  | nil =>
    cases inserted
    simp
  | cons q group ih =>
    unfold insertParam at inserted
    split at inserted
    · cases inserted
      simp
    · split at inserted
      · obtain ⟨rest, inner, rfl⟩ := Option.map_eq_some_iff.1 inserted
        intro p
        rw [List.mem_cons, ih inner, List.mem_cons, or_left_comm]
      · cases inserted

section Assign

variable {α β : Type} {a : α} {l : List (Int × α)}

theorem mem_assign {e : Int × α} (mem : e ∈ assign key a l) : e = (key, a) ∨ e ∈ l := by
  induction l with
  | nil => exact .inl (List.mem_singleton.1 mem)
  | cons d l ih =>
    unfold assign at mem
    split at mem
    · exact List.mem_cons.1 mem
    · split at mem
      · rcases List.mem_cons.1 mem with rfl | mem
        · exact .inr List.mem_cons_self
        · exact (ih mem).imp_right (List.mem_cons_of_mem _)
      · rcases List.mem_cons.1 mem with rfl | mem
        · exact .inl rfl
        · exact .inr (List.mem_cons_of_mem _ mem)

theorem map_assign (f : α → β) : (assign key a l).map (fun e => (e.1, f e.2)) = assign key (f a) (l.map fun e => (e.1, f e.2)) := by
  induction l with
  | nil => rfl
  | cons e l ih =>
    simp only [assign, List.map_cons]
    split
    · rfl
    · split
      · rw [List.map_cons, ih]
      · rfl

theorem sorted_assign (sorted : l.Pairwise fun e d => e.1 < d.1) : (assign key a l).Pairwise fun e d => e.1 < d.1 := by
  induction l with
  | nil => exact List.pairwise_singleton _ _
  | cons e l ih =>
    obtain ⟨below, rest⟩ := List.pairwise_cons.1 sorted
    unfold assign
    split
    next lt =>
      refine List.pairwise_cons.2 ⟨fun d mem => ?_, sorted⟩
      rcases List.mem_cons.1 mem with rfl | mem
      · exact lt
      · exact Int.lt_trans lt (below d mem)
    next notLt =>
      split
      next gt =>
        refine List.pairwise_cons.2 ⟨fun d mem => ?_, ih rest⟩
        rcases mem_assign mem with rfl | mem
        · exact gt
        · exact below d mem
      next notGt =>
        have same : e.1 = key := by omega
        exact List.pairwise_cons.2 ⟨fun d mem => same ▸ below d mem, rest⟩

theorem lookup_of_mem (sorted : l.Pairwise fun e d => e.1 < d.1) (mem : (key, a) ∈ l) : l.lookup key = some a := by
  induction l with
  | nil => cases mem
  | cons e l ih =>
    obtain ⟨below, rest⟩ := List.pairwise_cons.1 sorted
    rcases List.mem_cons.1 mem with rfl | mem
    · simp
    · have other : key ≠ e.1 := (Int.ne_of_lt (below _ mem)).symm
      rw [List.lookup_cons, beq_false_of_ne other]
      exact ih rest mem

end Assign

theorem mem_of_lookup {κ α : Type} [BEq κ] [LawfulBEq κ] {key : κ} {a : α} {l : List (κ × α)} (found : l.lookup key = some a) :
    (key, a) ∈ l := by
  induction l with
  | nil => cases found
  | cons e l ih =>
    rw [List.lookup_cons] at found
    split at found
    next same =>
      cases found
      rw [eq_of_beq same]
      exact List.mem_cons_self
    next => exact List.mem_cons_of_mem _ (ih found)

/-- What holds of a class as its fields are read. -/
structure Built (item : ClassItem) : Prop where
  filled : ∀ e ∈ item.keygroup, e.2 ≠ []
  members : ∀ e ∈ item.keygroup, ∀ p ∈ e.2, p ∈ item.params
  names : item.keygroupname = item.keygroup.map fun e => (e.1, typeNames e.2)
  sorted : item.keygroup.Pairwise fun e d => e.1 < d.1

theorem Built.loadField (built : Built item) (read : loadField item field = some item') : Built item' := by
  unfold Tools.loadField at read
  generalize { field with type := if field.type = "string" ∨ field.type = "std::string" then "xstring" else field.type } = temp at read
  dsimp only at read
  split at read
  · cases read
  · split at read
    · obtain ⟨keyindex, inserted, rfl⟩ := Option.map_eq_some_iff.1 read
      have inside := mem_insertParam inserted
      refine ⟨?_, ?_, ?_, sorted_assign built.sorted⟩
      · intro e mem
        rcases mem_assign mem with rfl | mem
        · exact List.ne_nil_of_mem ((inside temp).2 (.inl rfl))
        · exact built.filled e mem
      · intro e mem p listed
        rcases mem_assign mem with rfl | mem
        · rcases (inside p).1 listed with rfl | old
          · exact List.mem_append_right _ List.mem_cons_self
          · cases found : item.keygroup.lookup temp.key with
            | none => rw [found] at old; cases old
            | some group =>
              rw [found] at old
              exact List.mem_append_left _ (built.members _ (mem_of_lookup found) p old)
        · exact List.mem_append_left _ (built.members e mem p listed)
      · dsimp only
        rw [built.names, map_assign]
    · cases read
      exact { built with members := fun e mem p listed => List.mem_append_left _ (built.members e mem p listed) }

theorem Built.of_loadclasses (accepted : loadclasses fields = some item) : Built item := by
  have start : Built ⟨[], [], []⟩ := ⟨by simp, by simp, rfl, List.Pairwise.nil⟩
  refine foldlM_keeps Built ?_ start accepted
  intro item field next built read
  exact built.loadField read

/-! ### The written text, group by group -/

theorem Built.lookup_names (built : Built item) {e : Int × List ClassParam} (mem : e ∈ item.keygroup) :
    item.keygroupname.lookup e.1 = some (typeNames e.2) := by
  have sorted : item.keygroupname.Pairwise fun e d => e.1 < d.1 := by
    rw [built.names]
    exact List.pairwise_map.2 built.sorted
  refine lookup_of_mem sorted ?_
  rw [built.names]
  exact List.mem_map.2 ⟨e, mem, rfl⟩

theorem Built.param_eq (built : Built item) : writetable_param item = item.groups.map nest := by
  rw [writetable_param, built.names, ClassItem.groups, List.map_map, List.map_map]
  exact List.map_congr_left fun e _ => getLast_typeNames

theorem Built.filled_groups (built : Built item) : ∀ group ∈ item.groups, group ≠ [] := by
  intro group listed
  obtain ⟨e, mem, rfl⟩ := List.mem_map.1 listed
  exact built.filled e mem

/-- The lines of one group of more than one field. -/
def groupLines (tttt : Nat) (f g : ClassParam) (group : List ClassParam) : List LoadLine :=
  .find (map_tempit tttt (group.length + 1)) (.mappings tttt) f :: writeNext tttt (group.length + 1) g group

/-- The lines of `Load()`, for the groups alone. -/
def loadLines : Nat → List (List ClassParam) → List LoadLine
  | _, [] => []
  | tttt, [] :: rest => loadLines tttt rest
  | tttt, [f] :: rest => .assign (.mappings tttt) f :: loadLines tttt rest
  | tttt, (f :: g :: group) :: rest => groupLines tttt f g group ++ loadLines (tttt + 1) rest

theorem Built.load_eq (built : Built item) : writetable_load item = loadLines 1 item.groups := by
  have whole : ∀ (rest : List (Int × List ClassParam)) (tttt : Nat), (∀ e ∈ rest, e ∈ item.keygroup) →
      writeGroups item tttt rest = loadLines tttt (rest.map Prod.snd) := by
    intro rest
    induction rest with
    | nil => exact fun _ _ => rfl
    | cons e rest ih =>
      intro tttt within
      have later := fun tttt => ih tttt fun e mem => within e (List.mem_cons_of_mem _ mem)
      have lookup := built.lookup_names (within e List.mem_cons_self)
      obtain ⟨key, group⟩ := e
      match group with
      | [] => exact later tttt
      | [f] => exact congrArg _ (later tttt)
      | f :: g :: group =>
        have count : (typeNames (f :: g :: group)).length - 1 = group.length + 1 := by rw [length_typeNames]; rfl
        simp only [writeGroups, lookup, Option.getD_some, count, later, List.map_cons, loadLines, groupLines, List.cons_append]
  exact whole item.keygroup 1 fun e mem => mem

/-- The getter of so many keys. -/
def getterOf (number : Nat) (group : List ClassParam) (count : Nat) : Getter :=
  ⟨number, nest (group.drop count), group.take count, count = group.length⟩

theorem find_getter {k : Nat} {count : Nat} (built : Built item) (here : item.groups[k]? = some group) (lt : count < group.length) :
    ((writetable_get item).find? fun g => g.number = k + 1 ∧ g.params.length = count + 1) = some (getterOf (k + 1) group (count + 1)) := by
  have whole : ∀ (rest : List (Int × List ClassParam)) (ccc k : Nat), (∀ e ∈ rest, e ∈ item.keygroup) →
      (rest.map Prod.snd)[k]? = some group → ((writeGetters item ccc rest).find? fun g => g.number = ccc + k ∧ g.params.length = count + 1) =
        some (getterOf (ccc + k) group (count + 1)) := by
    intro rest
    induction rest with
    | nil => intro ccc k _ here; simp at here
    | cons e rest ih =>
      intro ccc k within here
      have lookup := built.lookup_names (within e List.mem_cons_self)
      obtain ⟨key, first⟩ := e
      simp only [writeGetters, lookup, Option.getD_some, length_typeNames, List.find?_append]
      cases k with
      | zero =>
        obtain rfl : first = group := by simpa using here
        rw [List.find?_map, Nat.add_zero]
        have found : ((List.range' 1 first.length).find? ((fun g : Getter => decide (g.number = ccc ∧ g.params.length = count + 1)) ∘
            fun count => ⟨ccc, if 0 < first.length - count then (typeNames first).getD (first.length - count - 1) .row else .row,
              first.take count, count = first.length⟩)) = some (count + 1) := by
          rw [List.find?_range'_eq_some]
          refine ⟨?_, ?_, ?_⟩
          · simp
            omega
          · simp
            omega
          · intro j low high
            simp
            omega
        have ret : (if 0 < first.length - (count + 1) then (typeNames first).getD (first.length - (count + 1) - 1) .row else .row)
            = nest (first.drop (count + 1)) := by
          split
          next more => rw [List.getD_eq_getElem?_getD, getElem_typeNames (by omega)]; rfl
          next done => rw [List.drop_of_length_le (by omega)]; rfl
        rw [found, Option.map_some, Option.some_or, getterOf, ret]
      | succ k =>
        have missing : ((List.range' 1 first.length).map fun count => (⟨ccc, if 0 < first.length - count then
            (typeNames first).getD (first.length - count - 1) .row else .row, first.take count, count = first.length⟩ : Getter)).find?
              (fun g => decide (g.number = ccc + (k + 1) ∧ g.params.length = count + 1)) = none := by
          simp
        rw [missing, Option.none_or]
        have later := ih (ccc + 1) k (fun e mem => within e (List.mem_cons_of_mem _ mem)) here
        rwa [show ccc + (k + 1) = ccc + 1 + k by omega]
  have found := whole item.keygroup 1 k (fun e mem => mem) here
  rwa [Nat.add_comm 1 k] at found

end Items

end GameServer.Tools

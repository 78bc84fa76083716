import GameServer.Lua.Archiver

/-!
# What an archive holds

Data hold values if they are put together as `Holds` says, and the reader takes them for those values and nothing else, if there is room
for them on the stack (`load_iff`).
-/

namespace GameServer.Lua

variable {N : Numbers}

/-- The keys and values of a table one after the other. -/
def flat {α : Type} (pairs : List (α × α)) : List α := pairs.flatMap fun p => [p.1, p.2]

/-- A value that is no table at the front of some data, and what stands behind it; with the strings that were read up to here and there. -/
inductive Atom : List (List UInt8) → List UInt8 → Tree N → List (List UInt8) → List UInt8 → Prop where
  | nill {sh : List (List UInt8)} {rest : List UInt8} : Atom sh (ArType.nill.code :: rest) .nil sh rest
  | number {sh : List (List UInt8)} {bytes rest : List UInt8} (length : bytes.length = 8) :
      Atom sh (ArType.number.code :: (bytes ++ rest)) (.number (N.ofBytes bytes)) sh rest
  | integer {sh : List (List UInt8)} {data rest : List UInt8} {i : Int64} (read : decode_s64 data = some (i, rest)) :
      Atom sh (ArType.integer.code :: data)
        (.number (N.ofinteger (if 0 ≤ i.toInt then i + Int64.ofNat small_int_max else i))) sh rest
  | bool_true {sh : List (List UInt8)} {rest : List UInt8} : Atom sh (ArType.bool_true.code :: rest) (.boolean true) sh rest
  | bool_false {sh : List (List UInt8)} {rest : List UInt8} : Atom sh (ArType.bool_false.code :: rest) (.boolean false) sh rest
  | string {sh : List (List UInt8)} {data str rest : List UInt8} (read : decode_u64 data = some (str.length, str ++ rest)) :
      Atom sh (ArType.string.code :: data) (.string str) (sh ++ [str]) rest
  | string_idx {sh : List (List UInt8)} {data str rest : List UInt8} {i : Nat} (read : decode_u64 data = some (i, rest))
      (known : sh[i]? = some str) : Atom sh (ArType.string_idx.code :: data) (.string str) sh rest
  | small {sh : List (List UInt8)} {c : UInt8} {rest : List UInt8} (large : ArType.count ≤ c.toNat) :
      Atom sh (c :: rest) (.number (N.ofinteger (Int64.ofNat (c.toNat - ArType.count)))) sh rest

/-- **What data hold** at their front: values, and what stands behind them. -/
inductive Holds : List (List UInt8) → List UInt8 → List (Tree N) → List (List UInt8) → List UInt8 → Prop where
  | nil {sh : List (List UInt8)} {data : List UInt8} : Holds sh data [] sh data
  | atom {sh sh' sh'' : List (List UInt8)} {data data' rest : List UInt8} {t : Tree N} {ts : List (Tree N)}
      (first : Atom sh data t sh' data') (more : Holds sh' data' ts sh'' rest) : Holds sh data (t :: ts) sh'' rest
  | table {sh sh' sh'' : List (List UInt8)} {data data' rest : List UInt8} {entries : List (Tree N × Tree N)} {ts : List (Tree N)}
      (inside : Holds sh data (flat entries) sh' (ArType.table_tail.code :: data')) (legal : ∀ e ∈ entries, e.1.legal = true)
      (more : Holds sh' data' ts sh'' rest) : Holds sh (ArType.table_head.code :: data) (.table entries :: ts) sh'' rest

mutual

/-- The slots of the stack that loading a value takes. -/
def Tree.slots : Tree N → Nat
  | .table entries => 1 + entriesSlots entries
  | _ => 1

def entriesSlots : List (Tree N × Tree N) → Nat
  | [] => 0
  | e :: entries => max (entrySlots e) (entriesSlots entries)

def entrySlots : Tree N × Tree N → Nat
  | (key, value) => max key.slots (1 + value.slots)

end

/-- There is room on the stack for values one above the other. -/
def Fits (top : Nat) : List (Tree N) → Prop
  | [] => True
  | t :: ts => top + t.slots ≤ LUAI_MAXCSTACK ∧ Fits (top + 1) ts

variable {sh sh' sh'' : List (List UInt8)} {data data' rest rest' bytes : List UInt8} {t u : Tree N} {ts us : List (Tree N)}
  {entries : List (Tree N × Tree N)} {fuel top : Nat} {l l' : Loader}

section Holding

theorem Holds.append (first : Holds sh data ts sh' data') (more : Holds sh' data' us sh'' rest) : Holds sh data (ts ++ us) sh'' rest := by
  induction first with
  | nil => exact more
  | atom atom _ ih => exact .atom atom (ih more)
  | table inside legal _ _ ih => exact .table inside legal (ih more)

theorem Holds.split (holds : Holds sh data (t :: ts) sh'' rest) :
    ∃ sh' data', Holds sh data [t] sh' data' ∧ Holds sh' data' ts sh'' rest := by
  cases holds with
  | atom first more => exact ⟨_, _, .atom first .nil, more⟩
  | table inside legal more => exact ⟨_, _, .table inside legal .nil, more⟩

theorem Atom.shorter (atom : Atom sh data t sh' rest) : rest.length < data.length := by
  cases atom with
  | nill | bool_true | bool_false | small => exact Nat.lt_succ_self _
  | number =>
    rw [List.length_cons, List.length_append]
    omega
  | integer read =>
    obtain ⟨bytes, rfl, -⟩ := decode_s64_split read
    rw [List.length_cons, List.length_append]
    omega
  | string read =>
    obtain ⟨bytes, rfl, -⟩ := decode_u64_split read
    rw [List.length_cons, List.length_append, List.length_append]
    omega
  | string_idx read =>
    obtain ⟨bytes, rfl, -⟩ := decode_u64_split read
    rw [List.length_cons, List.length_append]
    omega

theorem Holds.length_le (holds : Holds sh data ts sh' rest) : rest.length + ts.length ≤ data.length := by
  induction holds with
  | nil => exact Nat.le_refl _
  | atom atom _ ih =>
    have := atom.shorter
    rw [List.length_cons]
    omega
  | table _ _ _ inside ih =>
    rw [List.length_cons] at inside ⊢
    rw [List.length_cons]
    omega

/-- No value begins with the code for the end of a table. -/
theorem Holds.head (holds : Holds sh data (t :: ts) sh' rest) : ∃ c tail, data = c :: tail ∧ c ≠ ArType.table_tail.code := by
  cases holds with
  | atom first _ =>
    cases first with
    | small large =>
      refine ⟨_, _, rfl, ?_⟩
      rintro rfl
      exact absurd large (by decide)
    | _ => exact ⟨_, _, rfl, by decide⟩
  | table => exact ⟨_, _, rfl, by decide⟩

theorem Atom.slots (atom : Atom sh data t sh' rest) : t.slots = 1 := by
  cases atom <;> rw [Tree.slots] <;> simp

theorem flat_inj {α : Type} {pairs pairs' : List (α × α)} (same : flat pairs = flat pairs') : pairs = pairs' := by
  induction pairs generalizing pairs' with
  | nil =>
    cases pairs' with
    | nil => rfl
    | cons => cases same
  | cons p pairs ih =>
    cases pairs' with
    | nil => cases same
    | cons q pairs' =>
      have parts : p.1 :: p.2 :: flat pairs = q.1 :: q.2 :: flat pairs' := same
      obtain ⟨key, value, others⟩ : p.1 = q.1 ∧ p.2 = q.2 ∧ flat pairs = flat pairs' := by simpa using parts
      rw [Prod.ext key value, ih others]

end Holding

section Loading

theorem bind_eq_ok {α β : Type} {x : Except Failure α} {f : α → Except Failure β} {b : β} :
    x >>= f = .ok b ↔ ∃ a, x = .ok a ∧ f a = .ok b := by
  cases x with
  | error => exact ⟨fun failed => (by cases failed), fun ⟨_, failed, _⟩ => (by cases failed)⟩
  | ok a => exact ⟨fun same => ⟨a, rfl, same⟩, fun ⟨_, same, result⟩ => by cases same; exact result⟩

theorem ofCode_large {c : UInt8} (large : ArType.count ≤ c.toNat) : ArType.ofCode c = none := List.getElem?_eq_none large

theorem ofCode_some {c : UInt8} {type : ArType} (known : ArType.ofCode c = some type) : c = type.code := by
  obtain ⟨small, rfl⟩ := List.getElem?_eq_some_iff.1 known
  rw [ArType.code, List.Nodup.idxOf_getElem (by decide), UInt8.ofNat_toNat]

theorem bmod_natCast_le {n m : Nat} : (n : Int).bmod m ≤ n := by
  have := Nat.mod_le n m
  rw [Int.bmod_eq_emod]
  split_ifs <;> omega

theorem Atom.load (atom : Atom sh data t sh' rest) (room : top + 1 ≤ LUAI_MAXCSTACK) :
    load_value (fuel + 1) top ⟨data, sh⟩ = .ok (t, ⟨rest, sh'⟩) := by
  have enough : ¬(!lua_checkstack top 1) = true := by simpa [lua_checkstack] using room
  cases atom with
  | nill | bool_true | bool_false =>
    rw [load_value, if_neg enough]
    rfl
  | number length =>
    rw [load_value, if_neg enough]
    show load_atom .number ⟨_, sh⟩ = _
    rw [load_atom, if_neg (by rw [List.length_append]; omega), List.take_left' length, List.drop_left' length]
  | integer read =>
    rw [load_value, if_neg enough]
    show load_atom .integer ⟨_, sh⟩ = _
    rw [load_atom, read]
  | string read =>
    rename_i str
    have fits : str.length ≤ (str ++ rest).length := by
      rw [List.length_append]
      omega
    rw [load_value, if_neg enough]
    show load_atom .string ⟨_, sh⟩ = _
    rw [load_atom, read]
    dsimp only
    rw [if_neg (not_lt.2 (bmod_natCast_le.trans (Int.ofNat_le.2 fits))), if_neg (not_lt.2 fits), List.take_left, List.drop_left]
  | string_idx read known =>
    rw [load_value, if_neg enough]
    show load_atom .string_idx ⟨_, sh⟩ = _
    rw [load_atom, read]
    dsimp only
    rw [known]
  | small large =>
    rw [load_value, if_neg enough]
    dsimp only
    rw [ofCode_large large]

theorem Atom.unique (first : Atom sh data t sh' rest) (second : Atom sh data u sh'' rest') :
    t = u ∧ sh' = sh'' ∧ rest = rest' := by
  have one : load_value (0 + 1) 0 ⟨data, sh⟩ = .ok (t, ⟨rest, sh'⟩) := first.load (by decide)
  have other : load_value (0 + 1) 0 ⟨data, sh⟩ = .ok (u, ⟨rest', sh''⟩) := second.load (by decide)
  cases one.symm.trans other
  exact ⟨rfl, rfl, rfl⟩

theorem Atom.head_ne (atom : Atom sh data t sh' rest) {c : UInt8} {tail : List UInt8} (begins : data = c :: tail) :
    c ≠ ArType.table_head.code ∧ c ≠ ArType.table_tail.code := by
  cases atom with
  | small large =>
    cases begins
    refine ⟨?_, ?_⟩
    · rintro rfl
      exact absurd large (by decide)
    · rintro rfl
      exact absurd large (by decide)
  | _ =>
    cases begins
    exact ⟨by decide, by decide⟩

/-- No value begins here. -/
def Ends (data : List UInt8) : Prop := data = [] ∨ ∃ rest, data = ArType.table_tail.code :: rest

theorem Ends.holds (ends : Ends data) (holds : Holds sh data ts sh' rest) : ts = [] ∧ sh' = sh ∧ rest = data := by
  cases holds with
  | nil => exact ⟨rfl, rfl, rfl⟩
  | atom first more =>
    rcases ends with rfl | ⟨rest, rfl⟩
    · cases first
    · exact absurd rfl (first.head_ne rfl).2
  | table inside legal more =>
    rcases ends with same | ⟨rest, same⟩
    · cases same
    · cases same

/-- **Data hold one list of values**: what is held up to the end begins with what is held at the front. -/
theorem Holds.unique (first : Holds sh data ts sh' rest) (second : Holds sh data us sh'' rest') (ends : Ends rest') :
    ∃ us', us = ts ++ us' ∧ Holds sh' rest us' sh'' rest' := by
  induction first generalizing us sh'' rest' with
  | nil => exact ⟨us, rfl, second⟩
  | @atom sh sh₁ sh₂ data data₁ rest t ts atom more ih =>
    cases second with
    | nil =>
      obtain ⟨none, -⟩ := ends.holds (.atom atom more)
      cases none
    | atom atom' more' =>
      obtain ⟨rfl, rfl, rfl⟩ := atom.unique atom'
      obtain ⟨us', rfl, others⟩ := ih more' ends
      exact ⟨us', rfl, others⟩
    | table => exact absurd rfl (atom.head_ne rfl).1
  | @table sh sh₁ sh₂ data data₁ rest entries ts inside legal more ihInside ihMore =>
    cases second with
    | nil =>
      obtain ⟨none, -⟩ := ends.holds (.table inside legal more)
      cases none
    | atom atom' => exact absurd rfl (atom'.head_ne rfl).1
    | table inside' legal' more' =>
      -- both tables end where nothing more can be read in them
      obtain ⟨others, same, rest'⟩ := ihInside inside' (.inr ⟨_, rfl⟩)
      obtain ⟨rfl, rfl, tails⟩ := Ends.holds (.inr ⟨_, rfl⟩) rest'
      rw [List.append_nil] at same
      cases flat_inj same
      cases tails
      obtain ⟨us', rfl, others⟩ := ihMore more' ends
      exact ⟨us', rfl, others⟩

/-- What the reader of a value did: it read an atom, or the entries of a table. -/
inductive Loaded (fuel top : Nat) (l : Loader) (l' : Loader) : Tree N → Prop where
  | atom {t : Tree N} (atom : Atom l.m_shared_string l.data t l'.m_shared_string l'.data) : Loaded fuel top l l' t
  | table {data : List UInt8} {entries : List (Tree N × Tree N)} (head : l.data = ArType.table_head.code :: data)
      (inside : load_entries fuel (top + 1) ⟨data, l.m_shared_string⟩ = .ok (entries, l')) : Loaded fuel top l l' (.table entries)

theorem load_atom_cases {type : ArType} (read : load_atom type ⟨data, sh⟩ = .ok (t, l')) :
    Atom sh (type.code :: data) t l'.m_shared_string l'.data := by
  cases type with
  | nill =>
    cases read
    exact .nill
  | bool_true =>
    cases read
    exact .bool_true
  | bool_false =>
    cases read
    exact .bool_false
  | number =>
    rw [load_atom] at read
    split at read
    next => cases read
    next enough =>
    cases read
    have whole : Atom sh (ArType.number.code :: (data.take 8 ++ data.drop 8)) (Tree.number (N.ofBytes (data.take 8))) sh (data.drop 8) :=
      .number (List.length_take_of_le (Nat.le_of_not_lt enough))
    rw [List.take_append_drop] at whole
    exact whole
  | integer =>
    rw [load_atom] at read
    split at read
    next => cases read
    next known =>
    cases read
    exact .integer known
  | string =>
    rw [load_atom] at read
    split at read
    next => cases read
    next len rest known =>
    split at read
    next => cases read
    next =>
    split at read
    next => cases read
    next enough =>
    cases read
    refine .string ?_
    rw [List.length_take_of_le (Nat.le_of_not_lt enough), List.take_append_drop]
    exact known
  | string_idx =>
    rw [load_atom] at read
    split at read
    next => cases read
    next known =>
    split at read
    next => cases read
    next str found =>
    cases read
    exact .string_idx known found
  | table_head => cases read
  | table_tail => cases read

theorem load_value_cases (read : load_value (fuel + 1) top l = .ok (t, l')) :
    top + 1 ≤ LUAI_MAXCSTACK ∧ Loaded fuel top l l' t := by
  obtain ⟨data, sh⟩ := l
  rw [load_value] at read
  split at read
  next => cases read
  next enough =>
  have room : top + 1 ≤ LUAI_MAXCSTACK := by simpa [lua_checkstack] using enough
  refine ⟨room, ?_⟩
  cases data with
  | nil => cases read
  | cons code data =>
    dsimp only at read
    cases known : ArType.ofCode code with
    | none =>
      rw [known] at read
      cases read
      exact .atom (.small (List.getElem?_eq_none_iff.1 known))
    | some type =>
      obtain rfl := ofCode_some known
      rw [known] at read
      by_cases head : type = .table_head
      · subst head
        obtain ⟨⟨entries, l₂⟩, inside, same⟩ := bind_eq_ok.1 read
        cases same
        exact .table rfl inside
      · have atom : load_atom type ⟨data, sh⟩ = .ok (t, l') := by
          cases type <;> first | exact read | exact absurd rfl head
        exact .atom (load_atom_cases atom)

/-- Reading on, for a value and for the entries of a table. -/
structure Reads (N : Numbers) (fuel : Nat) : Prop where
  value : ∀ {sh data} {t : Tree N} {sh' rest} (top : Nat), Holds sh data [t] sh' rest → data.length ≤ rest.length + fuel →
    top + t.slots ≤ LUAI_MAXCSTACK → load_value fuel top ⟨data, sh⟩ = .ok (t, ⟨rest, sh'⟩)
  entries : ∀ {sh data} {entries : List (Tree N × Tree N)} {sh' rest} (top : Nat),
    Holds sh data (flat entries) sh' (ArType.table_tail.code :: rest) → (∀ e ∈ entries, e.1.legal = true) →
    data.length ≤ rest.length + fuel → top + entriesSlots entries ≤ LUAI_MAXCSTACK →
    load_entries fuel top ⟨data, sh⟩ = .ok (entries, ⟨rest, sh'⟩)

theorem reads (N : Numbers) (fuel : Nat) : Reads N fuel := by
  induction fuel with
  | zero =>
    refine ⟨fun top holds enough => ?_, fun top holds _ enough => ?_⟩
    · have := holds.length_le
      rw [List.length_singleton] at this
      omega
    · have := holds.length_le
      rw [List.length_cons] at this
      omega
  | succ fuel ih =>
    refine ⟨fun {sh data t sh' rest} top holds enough room => ?_, fun {sh data entries sh' rest} top holds legal enough room => ?_⟩
    · cases holds with
      | atom first more =>
        cases more
        rw [first.slots] at room
        exact first.load room
      | table inside legal more =>
        cases more
        rw [Tree.slots] at room
        rw [List.length_cons] at enough
        have free : ¬(!lua_checkstack top 1) = true := by
          simp only [lua_checkstack, Bool.not_eq_true', decide_eq_false_iff_not, not_not]
          omega
        rw [load_value, if_neg free]
        show (load_entries fuel (top + 1) ⟨_, sh⟩ >>= _) = _
        rw [ih.entries (top + 1) inside legal (by omega) (by omega)]
        rfl
    · cases entries with
      | nil =>
        cases holds
        rw [load_entries]
        exact if_pos rfl
      | cons e entries =>
        obtain ⟨key, value⟩ := e
        obtain ⟨sh₁, data₁, first, more⟩ : ∃ sh₁ data₁, Holds sh data [key] sh₁ data₁ ∧
            Holds sh₁ data₁ (value :: flat entries) sh' (ArType.table_tail.code :: rest) := Holds.split holds
        obtain ⟨sh₂, data₂, second, others⟩ := more.split
        obtain ⟨c, tail, start, other⟩ := Holds.head first
        obtain ⟨legalKey, legal⟩ := List.forall_mem_cons.1 legal
        have length₁ := first.length_le
        have length₂ := second.length_le
        have length₃ := others.length_le
        rw [List.length_singleton] at length₁ length₂
        rw [List.length_cons] at length₃
        rw [entriesSlots, entrySlots] at room
        have one := ih.value top first (by omega) (by omega)
        have two := ih.value (top + 1) second (by omega) (by omega)
        have rest := ih.entries top others legal (by omega) (by omega)
        subst start
        rw [load_entries]
        dsimp only
        rw [if_neg other, one]
        show (load_value fuel (top + 1) ⟨data₁, sh₁⟩ >>= _) = _
        rw [two]
        show (if (!key.legal) = true then _ else _ : Except Failure _) = _
        rw [if_neg (by rw [legalKey]; decide), rest]
        rfl

/-- Only what is there is read. -/
structure Sound (N : Numbers) (fuel : Nat) : Prop where
  value : ∀ {top : Nat} {l : Loader} {t : Tree N} {l' : Loader}, load_value fuel top l = .ok (t, l') →
    Holds l.m_shared_string l.data [t] l'.m_shared_string l'.data ∧ top + t.slots ≤ LUAI_MAXCSTACK
  entries : ∀ {top : Nat} {l : Loader} {entries : List (Tree N × Tree N)} {l' : Loader}, top ≤ LUAI_MAXCSTACK →
    load_entries fuel top l = .ok (entries, l') →
    Holds l.m_shared_string l.data (flat entries) l'.m_shared_string (ArType.table_tail.code :: l'.data) ∧
      (∀ e ∈ entries, e.1.legal = true) ∧ top + entriesSlots entries ≤ LUAI_MAXCSTACK

theorem sound (N : Numbers) (fuel : Nat) : Sound N fuel := by
  induction fuel with
  | zero =>
    refine ⟨fun read => ?_, fun _ read => ?_⟩
    · rw [load_value] at read
      cases read
    · rw [load_entries] at read
      cases read
  | succ fuel ih =>
    refine ⟨fun {top l t l'} read => ?_, fun {top l entries l'} room read => ?_⟩
    · obtain ⟨room, loaded⟩ := load_value_cases read
      cases loaded with
      | atom atom =>
        rw [atom.slots]
        exact ⟨.atom atom .nil, room⟩
      | table head inside =>
        obtain ⟨holds, legal, slots⟩ := ih.entries room inside
        rw [head, Tree.slots]
        exact ⟨.table holds legal .nil, by omega⟩
    · obtain ⟨data, sh⟩ := l
      rw [load_entries] at read
      cases data with
      | nil => cases read
      | cons code data =>
        dsimp only at read
        split at read
        next last =>
          cases read
          rw [entriesSlots, last]
          exact ⟨.nil, fun e mem => absurd mem List.not_mem_nil, room⟩
        next =>
          obtain ⟨⟨key, l₁⟩, first, read⟩ := bind_eq_ok.1 read
          obtain ⟨⟨value, l₂⟩, second, read⟩ := bind_eq_ok.1 read
          dsimp only at read
          split at read
          next => cases read
          next legalKey =>
            obtain ⟨⟨others, l₃⟩, more, read⟩ := bind_eq_ok.1 read
            cases read
            have slots₁ : top + key.slots ≤ LUAI_MAXCSTACK := (ih.value first).2
            have slots₂ : top + 1 + value.slots ≤ LUAI_MAXCSTACK := (ih.value second).2
            obtain ⟨rest, legal, slots⟩ := ih.entries room more
            have one := (ih.value first).1
            have two := (ih.value second).1
            refine ⟨one.append (two.append rest), List.forall_mem_cons.2 ⟨by simpa using legalKey, legal⟩, ?_⟩
            rw [entriesSlots, entrySlots]
            dsimp only
            omega

theorem map_nil_append (x : Except Failure (List (Tree N))) : x.map ([] ++ ·) = x := by
  cases x <;> rfl

/-- The loop of `load` reads values that fit, and goes on behind them. -/
theorem loadLoop_append (holds : Holds sh data ts sh' rest) (fits : Fits top ts) (enough : data.length < fuel) :
    ∃ fuel', rest.length < fuel' ∧
      loadLoop fuel top ⟨data, sh⟩ = (loadLoop fuel' (top + ts.length) ⟨rest, sh'⟩).map (ts ++ ·) := by
  induction ts generalizing sh data fuel top with
  | nil =>
    cases holds
    exact ⟨fuel, enough, (map_nil_append _).symm⟩
  | cons t ts ih =>
    obtain ⟨fuel, rfl⟩ : ∃ n, fuel = n + 1 := ⟨fuel - 1, by omega⟩
    obtain ⟨sh₁, data₁, first, more⟩ := holds.split
    obtain ⟨room, fits⟩ := fits
    have shorter := first.length_le
    rw [List.length_singleton] at shorter
    obtain ⟨c, tail, rfl, -⟩ := first.head
    obtain ⟨fuel', less, others⟩ := @ih sh₁ data₁ fuel (top + 1) more fits (by omega)
    refine ⟨fuel', less, ?_⟩
    have one := (reads N fuel).value top first (by omega) room
    rw [loadLoop]
    show (load_value fuel top ⟨c :: tail, sh⟩ >>= _) = _
    rw [one]
    show (loadLoop fuel (top + 1) ⟨data₁, sh₁⟩ >>= _) = _
    rw [others, List.length_cons, Nat.add_right_comm, ← Nat.add_assoc]
    cases loadLoop fuel' (top + ts.length + 1) ⟨rest, sh'⟩ <;> rfl

theorem loadLoop_sound (read : loadLoop fuel top ⟨data, sh⟩ = .ok ts) : (∃ sh', Holds sh data ts sh' []) ∧ Fits top ts := by
  induction fuel generalizing top data sh ts with
  | zero =>
    rw [loadLoop] at read
    cases read
  | succ fuel ih =>
    rw [loadLoop] at read
    cases data with
    | nil =>
      cases read
      exact ⟨⟨sh, .nil⟩, trivial⟩
    | cons c data =>
      obtain ⟨⟨value, l⟩, first, read⟩ := bind_eq_ok.1 read
      obtain ⟨values, others, read⟩ := bind_eq_ok.1 read
      cases read
      obtain ⟨one, room⟩ := (sound N fuel).value first
      obtain ⟨⟨sh', more⟩, fits⟩ := ih others
      exact ⟨⟨sh', one.append more⟩, room, fits⟩

/-- **What the reader accepts**: an archive that is not packed is loaded as some values if and only if it holds these values and
nothing behind them, and they have room on the stack. -/
theorem load_iff (a : lua_archiver) (z : Lz4) (top : Nat) (data : List UInt8) (ts : List (Tree N)) :
    a.load z top (0x78 :: data) = .ok ts ↔ (∃ sh, Holds [] data ts sh []) ∧ Fits top ts := by
  constructor
  · intro read
    exact loadLoop_sound read
  · rintro ⟨⟨sh, holds⟩, fits⟩
    obtain ⟨fuel', enough, all⟩ := loadLoop_append holds fits (Nat.lt_succ_self _)
    obtain ⟨fuel', rfl⟩ : ∃ n, fuel' = n + 1 := ⟨fuel' - 1, by omega⟩
    refine all.trans ?_
    rw [loadLoop]
    exact congrArg Except.ok (List.append_nil ts)

end Loading

end GameServer.Lua

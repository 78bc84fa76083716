import GameServer.Lua.Archives

/-!
# Saving Lua values and loading them again

What `save` writes holds the values that were saved (`save_value_saved`): the reader knows the strings that the writer shares, as its
first 255 ones. Numbers become integers unless they are truncated to 0, and the least integer becomes 246. So an archive that is not
packed is loaded as a copy of what was saved (`load_saved`). A packed one takes the byte behind it in the buffer along, and never is
(`load_packed`).
-/

namespace GameServer.Lua

variable {N : Numbers}

/-- What a number is loaded as. -/
def stored (n : N.Number) : N.Number :=
  if N.tointeger n = 0 then n
  else N.ofinteger (if N.tointeger n = Int64.minValue then Int64.ofNat small_int_max else N.tointeger n)

/-- What a value that is no table is loaded as. -/
def Value.atom : Value N → Option (Tree N)
  | .nil => some .nil
  | .number n => some (.number (stored n))
  | .boolean b => some (.boolean b)
  | .string s => some (.string s)
  | .table _ => none
  | .other => none

/-- The values are trees, and these are what they are loaded as. -/
inductive Copies (h : Heap N) : List (Value N) → List (Tree N) → Prop where
  | nil : Copies h [] []
  | atom {v : Value N} {t : Tree N} {vs : List (Value N)} {ts : List (Tree N)} (copy : v.atom = some t) (more : Copies h vs ts) :
      Copies h (v :: vs) (t :: ts)
  | table {t : Nat} {entries : List (Tree N × Tree N)} {vs : List (Value N)} {ts : List (Tree N)}
      (inside : Copies h (flat (h.pairs t)) (flat entries)) (more : Copies h vs ts) : Copies h (.table t :: vs) (.table entries :: ts)

/-- From one state of the writer to the next one: it wrote what holds copies of the values, within the buffer. -/
structure Saved (m_buffer_size : Nat) (h : Heap N) (s s' : Saver) (vs : List (Value N)) (ts : List (Tree N)) (bytes : List UInt8) :
    Prop where
  written : s'.written = s.written ++ bytes
  inside : s.written.length ≤ m_buffer_size → s'.written.length ≤ m_buffer_size
  copies : Copies h vs ts
  holds : ∀ sh, s.m_shared_string = sh.take max_share_string → ∃ sh', s'.m_shared_string = sh'.take max_share_string ∧
    ∀ rest, Holds sh (bytes ++ rest) ts sh' rest

variable {m_buffer_size left top : Nat} {h : Heap N} {s s' s'' : Saver} {v : Value N} {vs vs' : List (Value N)} {t : Tree N}
  {ts ts' : List (Tree N)} {bytes bytes' : List UInt8} {str : List UInt8}

section Steps

theorem Copies.append (first : Copies h vs ts) (more : Copies h vs' ts') : Copies h (vs ++ vs') (ts ++ ts') := by
  induction first with
  | nil => exact more
  | atom copy _ ih => exact .atom copy ih
  | table inside _ _ ih => exact .table inside ih

/-- The copy of a key is a key. -/
theorem Copies.legal (copies : Copies h [v] [t]) (legal : v.Legal) : t.legal = true := by
  cases copies with
  | atom copy _ =>
    cases v with
    | nil => exact legal.elim
    | number n =>
      cases copy
      have other : N.isnan n = false := legal
      simp only [Tree.legal, stored]
      split_ifs with zero
      · rw [other]
        rfl
      · rw [N.isnan_ofinteger]
        rfl
      · rw [N.isnan_ofinteger]
        rfl
    | boolean b => cases copy; rfl
    | string s => cases copy; rfl
    | table t => cases copy
    | other => cases copy
  | table => rfl

theorem Saved.refl : Saved m_buffer_size h s s [] [] [] where
  written := (List.append_nil _).symm
  inside := id
  copies := .nil
  holds sh same := ⟨sh, same, fun _ => .nil⟩

theorem Saved.trans (first : Saved m_buffer_size h s s' vs ts bytes) (more : Saved m_buffer_size h s' s'' vs' ts' bytes') :
    Saved m_buffer_size h s s'' (vs ++ vs') (ts ++ ts') (bytes ++ bytes') where
  written := by rw [more.written, first.written, List.append_assoc]
  inside fits := more.inside (first.inside fits)
  copies := first.copies.append more.copies
  holds sh same := by
    obtain ⟨sh₁, same₁, holds₁⟩ := first.holds sh same
    obtain ⟨sh₂, same₂, holds₂⟩ := more.holds sh₁ same₁
    refine ⟨sh₂, same₂, fun rest => ?_⟩
    rw [List.append_assoc]
    exact (holds₁ _).append (holds₂ rest)

theorem push_ok (pushed : s.push m_buffer_size bytes = .ok s') :
    s' = { s with written := s.written ++ bytes } ∧ bytes.length ≤ s.room m_buffer_size := by
  rw [Saver.push] at pushed
  split_ifs at pushed with full
  cases pushed
  exact ⟨rfl, Nat.le_of_not_lt full⟩

theorem pushVar_ok {encoded : Option (List UInt8)} (pushed : s.pushVar encoded = .ok s') :
    ∃ bytes, encoded = some bytes ∧ s' = { s with written := s.written ++ bytes } := by
  cases encoded with
  | none => cases pushed
  | some bytes =>
    cases pushed
    exact ⟨bytes, rfl, rfl⟩

theorem room_append (fits : s.written.length ≤ m_buffer_size) (room : bytes.length ≤ s.room m_buffer_size) :
    (s.written ++ bytes).length ≤ m_buffer_size := by
  rw [Saver.room] at room
  rw [List.length_append]
  omega

/-- An atom that is pushed whole, and changes no string. -/
theorem saved_push (pushed : s.push m_buffer_size bytes = .ok s') (copy : v.atom = some t)
    (atom : ∀ sh rest, Atom sh (bytes ++ rest) t sh rest) : Saved m_buffer_size h s s' [v] [t] bytes := by
  obtain ⟨rfl, room⟩ := push_ok pushed
  exact ⟨rfl, fun fits => room_append fits room, .atom copy .nil, fun sh same => ⟨sh, same, fun rest => .atom (atom sh rest) .nil⟩⟩

/-- An atom that is a code and a number behind it. -/
theorem saved_pushVar {code : UInt8} {encode : Nat → Option (List UInt8)}
    (length : ∀ {room bytes}, encode room = some bytes → bytes.length ≤ room)
    (pushed : (s.push m_buffer_size [code] >>= fun s => s.pushVar (encode (s.room m_buffer_size))) = .ok s') (copy : v.atom = some t)
    (atom : ∀ room bytes, encode room = some bytes → ∀ sh, s.m_shared_string = sh.take max_share_string →
      ∀ rest, Atom sh (code :: (bytes ++ rest)) t sh rest) :
    ∃ bytes, Saved m_buffer_size h s s' [v] [t] bytes := by
  obtain ⟨s₁, first, pushed⟩ := bind_eq_ok.1 pushed
  obtain ⟨rfl, room⟩ := push_ok first
  obtain ⟨bytes, encoded, rfl⟩ := pushVar_ok pushed
  refine ⟨code :: bytes, ⟨by simp, fun fits => ?_, .atom copy .nil, fun sh same => ⟨sh, same, fun rest => ?_⟩⟩⟩
  · exact room_append (room_append fits room) (length encoded)
  · exact .atom (atom _ bytes encoded sh same rest) .nil

end Steps

section Values

theorem length_encode_s64 {room : Nat} {value : Int64} (encoded : encode_s64 room value = some bytes) : bytes.length ≤ room :=
  length_encode_u64 encoded

/-- What an integer that is not small comes back as: above `small_int_max` it is written less that. -/
theorem integer_back {v v' : Int64} (large : ¬(0 ≤ v.toInt ∧ v.toInt ≤ small_int_max))
    (less : v' = if v.toInt > small_int_max then v - Int64.ofNat small_int_max else v) {i : Int64}
    (read : i = if v' = Int64.minValue then 0 else v') :
    (if 0 ≤ i.toInt then i + Int64.ofNat small_int_max else i) =
      if v = Int64.minValue then Int64.ofNat small_int_max else v := by
  have least : Int64.minValue.toInt = -2 ^ 63 := by decide
  have max : (Int64.ofNat small_int_max).toInt = 246 := by decide
  have bound : (small_int_max : Int) = 246 := rfl
  rw [bound] at large less
  by_cases high : v.toInt > 246
  · have range := v.toInt_lt
    have value : v'.toInt = v.toInt - 246 := by
      rw [less, if_pos high, Int64.toInt_sub, max]
      apply Int.bmod_eq_of_le <;> omega
    have other : v' ≠ Int64.minValue := by
      rintro rfl
      omega
    have other' : v ≠ Int64.minValue := by
      rintro rfl
      omega
    rw [read, if_neg other, if_pos (by omega), if_neg other', less, if_pos high, Int64.sub_add_cancel]
  · rw [if_neg high] at less
    subst less
    by_cases same : v' = Int64.minValue
    · rw [read, if_pos same, if_pos same]
      rfl
    · rw [read, if_neg same, if_neg (by omega), if_neg same]

theorem ofNat_toInt {v : Int64} (positive : 0 ≤ v.toInt) : Int64.ofNat v.toInt.toNat = v := by
  apply Int64.toInt_inj.1
  have range := v.toInt_lt
  rw [Int64.toInt_ofNat_of_lt (by omega), Int.toNat_of_nonneg positive]

theorem save_integer_saved {n : N.Number} (other : N.tointeger n ≠ 0)
    (saved : s.save_integer m_buffer_size (N.tointeger n) = .ok s') :
    ∃ bytes, Saved m_buffer_size h s s' [.number n] [.number (stored n)] bytes := by
  rw [Saver.save_integer] at saved
  split at saved
  next small =>
    obtain ⟨positive, small⟩ := small
    have bound : (small_int_max : Int) = 246 := rfl
    rw [bound] at small
    have code : (UInt8.ofNat ((N.tointeger n).toInt.toNat + ArType.count)).toNat = (N.tointeger n).toInt.toNat + ArType.count := by
      rw [UInt8.toNat_ofNat', ArType.count]
      omega
    have least : N.tointeger n ≠ Int64.minValue := by
      intro same
      rw [same] at positive
      exact absurd positive (by decide)
    refine ⟨_, saved_push saved rfl fun sh rest => ?_⟩
    have atom := @Atom.small N sh (UInt8.ofNat ((N.tointeger n).toInt.toNat + ArType.count)) rest (by rw [code]; omega)
    rw [code, Nat.add_sub_cancel, ofNat_toInt positive] at atom
    rw [stored, if_neg other, if_neg least]
    exact atom
  next large =>
    refine saved_pushVar length_encode_s64 saved rfl fun room bytes encoded sh _ rest => ?_
    have atom := @Atom.integer N sh _ _ _ (decode_encode_s64 encoded rest)
    rw [integer_back large rfl rfl] at atom
    rw [stored, if_neg other]
    exact atom

/-- The writer's strings are the reader's first ones, also behind one more. -/
theorem take_push {sh : List (List UInt8)} (same : s.m_shared_string = sh.take max_share_string) (str : List UInt8) :
    (if s.m_shared_string.length < max_share_string then s.m_shared_string ++ [str] else s.m_shared_string) =
      (sh ++ [str]).take max_share_string := by
  rw [same, List.length_take]
  by_cases few : sh.length < max_share_string
  · rw [if_pos (by omega), List.take_of_length_le (by omega), List.take_of_length_le]
    rw [List.length_append, List.length_singleton]
    omega
  · rw [if_neg (by omega), List.take_append_of_le_length (by omega)]

/-- A string among the first ones is at its index in all of them. -/
theorem idxOf_take {sh : List (List UInt8)} {shared : Nat} (found : (sh.take max_share_string).idxOf? str = some shared) :
    sh[shared]? = some str ∧ shared < max_share_string := by
  obtain ⟨small, here, -⟩ := List.idxOf?_eq_some_iff.1 found
  rw [List.length_take] at small
  rw [List.getElem_take] at here
  refine ⟨?_, by omega⟩
  rw [List.getElem?_eq_getElem (by omega)]
  exact congrArg some here

theorem save_string_saved (word : m_buffer_size < 2 ^ 64) (saved : s.save_string m_buffer_size str = .ok s') :
    ∃ bytes, Saved m_buffer_size h s s' [.string str] [.string str] bytes := by
  rw [Saver.save_string] at saved
  split at saved
  next shared found =>
    refine saved_pushVar length_encode_u64 saved rfl fun room bytes encoded sh same rest => ?_
    obtain ⟨here, small⟩ := idxOf_take (same ▸ found)
    have word : shared < 2 ^ 64 := by
      rw [max_share_string] at small
      omega
    exact .string_idx (decode_encode_u64 word encoded rest) here
  next =>
    obtain ⟨s₁, first, saved⟩ := bind_eq_ok.1 saved
    obtain ⟨rfl, room₁⟩ := push_ok first
    obtain ⟨s₂, second, saved⟩ := bind_eq_ok.1 saved
    obtain ⟨bytes, encoded, rfl⟩ := pushVar_ok second
    split at saved
    next => cases saved
    next =>
    split at saved
    next => cases saved
    next fits =>
    cases saved
    have room := Nat.le_of_not_lt fits
    refine ⟨ArType.string.code :: (bytes ++ str), ⟨by simp, fun inside => ?_, .atom rfl .nil, fun sh same => ?_⟩⟩
    · exact room_append (room_append (room_append inside room₁) (length_encode_u64 encoded)) room
    · refine ⟨sh ++ [str], take_push same str, fun rest => .atom (.string ?_) .nil⟩
      rw [Saver.room] at room
      show decode_u64 ((bytes ++ str) ++ rest) = _
      rw [List.append_assoc]
      exact decode_encode_u64 (by omega) encoded _

/-- The pairs of a table, one after the other. -/
theorem save_pairs_saved {save : Saver → Value N → Except Failure Saver} {slots : Nat}
    (one : ∀ {s v s'}, save s v = .ok s' → ∃ t bytes, Saved m_buffer_size h s s' [v] [t] bytes ∧ t.slots ≤ slots)
    {pairs : List (Value N × Value N)} (legal : ∀ p ∈ pairs, p.1.Legal)
    (saved : pairs.foldlM (fun s p => save s p.1 >>= fun s => save s p.2) s = .ok s') :
    ∃ entries bytes, Saved m_buffer_size h s s' (flat pairs) (flat entries) bytes ∧ (∀ e ∈ entries, e.1.legal = true) ∧
      entriesSlots entries ≤ slots + 1 := by
  induction pairs generalizing s with
  | nil =>
    cases saved
    exact ⟨[], [], .refl, fun e mem => absurd mem List.not_mem_nil, Nat.zero_le _⟩
  | cons p pairs ih =>
    obtain ⟨legalKey, legal⟩ := List.forall_mem_cons.1 legal
    rw [List.foldlM_cons] at saved
    obtain ⟨s₂, pair, saved⟩ := bind_eq_ok.1 saved
    obtain ⟨s₁, first, second⟩ := bind_eq_ok.1 pair
    obtain ⟨key, bytes₁, saved₁, slots₁⟩ := one first
    obtain ⟨value, bytes₂, saved₂, slots₂⟩ := one second
    obtain ⟨entries, bytes, others, legalKeys, slots'⟩ := ih legal saved
    refine ⟨(key, value) :: entries, _, (saved₁.trans saved₂).trans others,
      List.forall_mem_cons.2 ⟨saved₁.copies.legal legalKey, legalKeys⟩, ?_⟩
    rw [entriesSlots, entrySlots]
    omega

theorem save_atom_saved (word : m_buffer_size < 2 ^ 64) (saved : save_value m_buffer_size h left top s v = .ok s')
    (plain : ∀ t, v ≠ .table t) : ∃ t bytes, Saved m_buffer_size h s s' [v] [t] bytes ∧ t.slots = 1 := by
  cases v with
  | nil =>
    rw [save_value] at saved
    exact ⟨.nil, _, saved_push saved rfl fun _ _ => .nill, by simp [Tree.slots]⟩
  | number n =>
    rw [save_value] at saved
    split at saved
    next other =>
      obtain ⟨bytes, saved⟩ := save_integer_saved other saved
      exact ⟨_, bytes, saved, by simp [Tree.slots]⟩
    next zero =>
      refine ⟨.number (stored n), _, saved_push saved rfl fun sh rest => ?_, by simp [Tree.slots]⟩
      rw [stored, if_pos (not_not.1 zero)]
      have atom := @Atom.number N sh (N.bytes n) rest (N.length_bytes n)
      rw [N.ofBytes_bytes] at atom
      exact atom
  | boolean b =>
    rw [save_value] at saved
    cases b with
    | true => exact ⟨.boolean true, _, saved_push saved rfl fun _ _ => .bool_true, by simp [Tree.slots]⟩
    | false => exact ⟨.boolean false, _, saved_push saved rfl fun _ _ => .bool_false, by simp [Tree.slots]⟩
  | string str =>
    rw [save_value] at saved
    obtain ⟨bytes, saved⟩ := save_string_saved word saved
    exact ⟨_, bytes, saved, by simp [Tree.slots]⟩
  | table t => exact absurd rfl (plain t)
  | other =>
    rw [save_value] at saved
    cases saved

/-- **What a value is saved as** holds a copy of it, which takes no more slots of the stack than the depth allows. -/
theorem save_value_saved (word : m_buffer_size < 2 ^ 64) (saved : save_value m_buffer_size h left top s v = .ok s') :
    ∃ t bytes, Saved m_buffer_size h s s' [v] [t] bytes ∧ t.slots ≤ 2 * left + 1 := by
  induction left generalizing top s s' v with
  | zero =>
    by_cases plain : ∀ t, v ≠ .table t
    · obtain ⟨t, bytes, saved, slots⟩ := save_atom_saved word saved plain
      exact ⟨t, bytes, saved, by omega⟩
    push Not at plain
    obtain ⟨r, rfl⟩ := plain
    rw [save_value] at saved
    cases saved
  | succ left ih =>
    by_cases plain : ∀ t, v ≠ .table t
    · obtain ⟨t, bytes, saved, slots⟩ := save_atom_saved word saved plain
      exact ⟨t, bytes, saved, by omega⟩
    push Not at plain
    obtain ⟨r, rfl⟩ := plain
    rw [save_value, Saver.save_table] at saved
    obtain ⟨s₁, first, saved⟩ := bind_eq_ok.1 saved
    obtain ⟨rfl, room⟩ := push_ok first
    split at saved
    next => cases saved
    next =>
    obtain ⟨s₂, pairs, last⟩ := bind_eq_ok.1 saved
    obtain ⟨rfl, room'⟩ := push_ok last
    obtain ⟨entries, bytes, inner, legal, slots⟩ := save_pairs_saved ih (h.legal r) pairs
    refine ⟨.table entries, ArType.table_head.code :: (bytes ++ [ArType.table_tail.code]), ⟨?_, fun inside => ?_,
      .table inner.copies .nil, fun sh same => ?_⟩, ?_⟩
    · rw [inner.written]
      simp
    · exact room_append (inner.inside (room_append inside room)) room'
    · obtain ⟨sh', same', holds⟩ := inner.holds sh same
      refine ⟨sh', same', fun rest => ?_⟩
      rw [List.cons_append, List.append_assoc]
      exact .table (holds _) legal .nil
    · rw [Tree.slots]
      omega

/-- The values that `save` goes through. -/
theorem save_values_saved (word : m_buffer_size < 2 ^ 64) (saved : vs.foldlM (save_value m_buffer_size h left top) s = .ok s') :
    ∃ ts bytes, Saved m_buffer_size h s s' vs ts bytes ∧ ∀ t ∈ ts, t.slots ≤ 2 * left + 1 := by
  induction vs generalizing s with
  | nil =>
    cases saved
    exact ⟨[], [], .refl, fun t mem => absurd mem List.not_mem_nil⟩
  | cons v vs ih =>
    rw [List.foldlM_cons] at saved
    obtain ⟨s₁, first, saved⟩ := bind_eq_ok.1 saved
    obtain ⟨t, bytes₁, one, slots⟩ := save_value_saved word first
    obtain ⟨ts, bytes₂, others, slots'⟩ := ih saved
    exact ⟨t :: ts, _, one.trans others, List.forall_mem_cons.2 ⟨slots, slots'⟩⟩

end Values

section Archives

theorem fits_of_slots {slots : Nat} (small : ∀ t ∈ ts, t.slots ≤ slots + 1) (room : top + ts.length + slots ≤ LUAI_MAXCSTACK) :
    Fits top ts := by
  induction ts generalizing top with
  | nil => trivial
  | cons t ts ih =>
    obtain ⟨one, others⟩ := List.forall_mem_cons.1 small
    rw [List.length_cons] at room
    exact ⟨by omega, ih others (by omega)⟩

theorem Copies.length (copies : Copies h vs ts) : ts.length = vs.length := by
  induction copies with
  | nil => rfl
  | atom _ _ ih => rw [List.length_cons, List.length_cons, ih]
  | table _ _ _ ih => rw [List.length_cons, List.length_cons, ih]

/-- What stands in the buffer behind the `x` when everything is saved. -/
structure Archived (a : lua_archiver) (h : Heap N) (vs : List (Value N)) (ts : List (Tree N)) (bytes : List UInt8) : Prop where
  inside : bytes.length + 1 ≤ a.m_buffer_size
  copies : Copies h vs ts
  holds : ∃ sh, ∀ rest, Holds [] (bytes ++ rest) ts sh rest
  slots : ∀ t ∈ ts, t.slots ≤ 2 * max_table_depth + 1

theorem Archived.fits {a : lua_archiver} (archived : Archived a h vs ts bytes)
    (room : top + vs.length + 2 * max_table_depth ≤ LUAI_MAXCSTACK) : Fits top ts := by
  rw [← archived.copies.length] at room
  exact fits_of_slots archived.slots room

/-- What `save` returns: the buffer, or what LZ4 made of as many bytes from behind the `x`. -/
theorem save_cases {a : lua_archiver} {z : Lz4} {memory archive : List UInt8} (saved : a.save z memory h top vs = .ok archive) :
    ∃ ts bytes, Archived a h vs ts bytes ∧ (archive = 0x78 :: bytes ∨
      ∃ packed, z.compress_default (bytes ++ memory.drop (bytes.length + 1)) (Lib.toInt32 (bytes.length + 1))
        (Lib.toInt32 a.m_buffer_size - 1) = some packed ∧ archive = 0x7A :: packed) := by
  rw [lua_archiver.save] at saved
  split at saved
  next => cases saved
  next =>
  split at saved
  next => cases saved
  next some' =>
  obtain ⟨s, written, saved⟩ := bind_eq_ok.1 saved
  obtain ⟨ts, bytes, whole, slots⟩ := save_values_saved a.word written
  obtain ⟨sh, -, holds⟩ := whole.holds [] rfl
  have inside : s.written.length ≤ a.m_buffer_size := whole.inside (Nat.pos_of_ne_zero some')
  have begins : s.written = 0x78 :: bytes := whole.written
  rw [begins, List.length_cons] at inside
  refine ⟨ts, bytes, ⟨inside, whole.copies, ⟨sh, holds⟩, slots⟩, ?_⟩
  dsimp only at saved
  rw [begins] at saved
  split at saved
  next =>
    split at saved
    next => cases saved
    next packed made =>
      cases saved
      exact .inr ⟨packed, made, rfl⟩
  next =>
    cases saved
    exact .inl rfl

/-- **What was saved is loaded**: an archive that is not packed fits the buffer, and any archiver loads it as copies of the values, if it
has the room on its stack. -/
theorem load_saved (a : lua_archiver) (z : Lz4) (memory : List UInt8) (h : Heap N) (top : Nat) (values : List (Value N))
    (archive : List UInt8) (saved : a.save z memory h top values = .ok archive) (plain : archive.head? = some 0x78) :
    archive.length ≤ a.m_buffer_size ∧ ∃ ts, Copies h values ts ∧ ∀ (b : lua_archiver) (top' : Nat),
      top' + values.length + 2 * max_table_depth ≤ LUAI_MAXCSTACK → b.load z top' archive = .ok ts := by
  obtain ⟨ts, bytes, archived, rfl | ⟨packed, -, rfl⟩⟩ := save_cases saved
  · refine ⟨archived.inside, ts, archived.copies, fun b top' room => ?_⟩
    obtain ⟨sh, holds⟩ := archived.holds
    have whole := holds []
    rw [List.append_nil] at whole
    exact (load_iff b z top' bytes ts).2 ⟨⟨sh, whole⟩, archived.fits room⟩
  · exact absurd (Option.some.inj plain) (by decide)

namespace Sample

/-- Whole numbers; the bytes of 0 are those of the `double`. -/
def numbers : Numbers where
  Number := Int64
  tointeger := id
  ofinteger := id
  isnan _ := false
  bytes n := Lib.leBytes 8 n.toUInt64.toNat
  ofBytes bytes := (UInt64.ofNat (Lib.leVal bytes)).toInt64
  length_bytes _ := Lib.length_leBytes _ _
  ofBytes_bytes n := by
    have small : n.toUInt64.toNat < 256 ^ 8 := n.toUInt64.toNat_lt
    rw [Lib.leVal_leBytes, Nat.mod_eq_of_lt small, UInt64.ofNat_toNat]
    rfl
  isnan_ofinteger _ := rfl

/-- `{hp = 1000, [1] = {}}`, and the table in it. -/
def heap : Heap numbers where
  pairs t := if t = 0 then [(.string [0x68, 0x70], .number (1000 : Int64)), (.number (1 : Int64), .table 1)] else []
  legal t p mem := by
    split_ifs at mem with first
    · obtain rfl | rfl : p = _ ∨ p = _ := by simpa using mem
      · exact trivial
      · exact rfl
    · cases mem

def values : List (Value numbers) := [.table 0, .number (-3 : Int64), .number (0 : Int64), .string [0x68, 0x70]]

def archiver : lua_archiver where
  m_buffer_size := 64
  m_lz_threshold := 64

/-- As few as 12 bytes are packed as literals behind a token. -/
def lz4 : Lz4 where
  compress_default src n room :=
    if 0 < n ∧ n ≤ 12 ∧ n < room then some (UInt8.ofNat (16 * n.toNat) :: src.take n.toNat) else none
  decompress_safe packed _ capacity :=
    match packed with
    | [] => none
    | _ :: literals => if (literals.length : Int) ≤ capacity then some literals else none

end Sample

theorem load_saved_sample : ∃ archive, Sample.archiver.save Sample.lz4 [] Sample.heap 0 Sample.values = .ok archive ∧
    archive.length = 26 ∧ ∃ ts, Copies Sample.heap Sample.values ts ∧ Sample.archiver.load Sample.lz4 0 archive = .ok ts := by
  obtain ⟨_, ts, copies, loads⟩ := load_saved Sample.archiver Sample.lz4 [] Sample.heap 0 Sample.values _ rfl rfl
  exact ⟨_, rfl, rfl, ts, copies, loads Sample.archiver 0 (by decide)⟩

/-- What LZ4 packed fits the destination, and is unpacked to what it was made of. -/
structure Lz4.Unpacks (z : Lz4) : Prop where
  length : ∀ {src : List UInt8} {n room : Int} {packed : List UInt8},
    z.compress_default src n room = some packed → 0 ≤ room → (packed.length : Int) ≤ room
  unpacked : ∀ {src : List UInt8} {n room capacity : Int} {packed : List UInt8},
    z.compress_default src n room = some packed → 0 < n → n ≤ src.length → n ≤ capacity →
      z.decompress_safe packed packed.length capacity = some (src.take n.toNat)

/-- One byte holds one value, if any. -/
theorem Holds.byte {c : UInt8} {sh sh' : List (List UInt8)} (holds : Holds sh [c] ts sh' []) : ∃ t, ts = [t] := by
  have length := holds.length_le
  rw [List.length_nil, List.length_singleton] at length
  cases ts with
  | nil => cases holds
  | cons t ts =>
    rw [List.length_cons] at length
    obtain rfl : ts = [] := List.length_eq_zero_iff.1 (by omega)
    exact ⟨t, rfl⟩

/-- **What was packed is never loaded as it was**: the byte behind it in the buffer was packed too, so the archive is not loaded, or with
one value more. -/
theorem load_packed (a : lua_archiver) (z : Lz4) (unpacks : z.Unpacks) (memory : List UInt8) (h : Heap N) (top : Nat)
    (values : List (Value N)) (archive : List UInt8) (small : a.m_buffer_size < 2 ^ 31) (behind : a.m_buffer_size < memory.length)
    (saved : a.save z memory h top values = .ok archive) (packed : archive.head? = some 0x7A) :
    ∃ ts, Copies h values ts ∧ ∀ top' us, a.load z top' archive = .ok us → ∃ t, us = ts ++ [t] := by
  obtain ⟨ts, bytes, archived, rfl | ⟨data, made, rfl⟩⟩ := save_cases saved
  · exact absurd (Option.some.inj packed) (by decide)
  refine ⟨ts, archived.copies, fun top' us read => ?_⟩
  have inside := archived.inside
  obtain ⟨sh, holds⟩ := archived.holds
  -- the byte that stands behind the archive
  obtain ⟨c, memory', behind'⟩ : ∃ c memory', memory.drop (bytes.length + 1) = c :: memory' := by
    cases more : memory.drop (bytes.length + 1) with
    | nil =>
      have := List.drop_eq_nil_iff.1 more
      omega
    | cons c memory' => exact ⟨c, memory', rfl⟩
  have count : Lib.toInt32 (bytes.length + 1) = (bytes.length + 1 : Nat) := Lib.toInt32_eq (by omega) (by omega)
  have size : Lib.toInt32 a.m_buffer_size = a.m_buffer_size := Lib.toInt32_eq (by omega) (by omega)
  rw [behind', count, size] at made
  have below : (data.length : Int) + 1 < 2 ^ 31 :=
    calc
      (data.length : Int) + 1 ≤ a.m_buffer_size := Int.add_le_of_le_sub_right (unpacks.length made (by omega))
      _ < 2 ^ 31 := by exact_mod_cast small
  have given : Lib.toInt32 (data.length + 1) - 1 = data.length := by
    rw [Lib.toInt32_eq (by omega) below, Int.add_sub_cancel]
  have back := unpacks.unpacked made (by omega) (by rw [List.length_append, List.length_cons]; omega) (Int.ofNat_le.2 inside)
  rw [Int.toNat_natCast, List.take_length_add_append] at back
  rw [lua_archiver.load, if_pos rfl, given, size, back] at read
  replace read : loadLoop ((bytes ++ [c]).length + 1) top' ⟨bytes ++ [c], []⟩ = .ok us := read
  obtain ⟨⟨sh', whole⟩, -⟩ := loadLoop_sound read
  -- the values are held first, and then what the byte holds
  obtain ⟨us', rfl, last⟩ := (holds [c]).unique whole (.inl rfl)
  obtain ⟨t, rfl⟩ := last.byte
  exact ⟨t, rfl⟩

theorem Sample.unpacks : Sample.lz4.Unpacks where
  length made _ := by
    obtain ⟨⟨_, _, _⟩, same⟩ := Option.ite_none_right_eq_some.1 made
    cases same
    rw [List.length_cons, List.length_take]
    omega
  unpacked made _ enough room := by
    obtain ⟨⟨_, _, _⟩, same⟩ := Option.ite_none_right_eq_some.1 made
    cases same
    refine if_pos ?_
    rw [List.length_take]
    omega

def Sample.packer : lua_archiver where
  m_buffer_size := 16
  m_lz_threshold := 3

/-- Behind two values the byte 0 is loaded as `nil`. -/
theorem load_packed_sample : ∃ archive ts,
    Sample.packer.save Sample.lz4 (List.replicate 17 0) Sample.heap 0 [.boolean true, .boolean false] = .ok archive ∧
    Copies Sample.heap [.boolean true, .boolean false] ts ∧ ∃ t, Sample.packer.load Sample.lz4 0 archive = .ok (ts ++ [t]) := by
  obtain ⟨ts, copies, loads⟩ := load_packed Sample.packer Sample.lz4 Sample.unpacks (List.replicate 17 0) Sample.heap 0
    [.boolean true, .boolean false] _ (by decide) (by decide) rfl rfl
  obtain ⟨t, same⟩ := loads 0 [.boolean true, .boolean false, .nil] rfl
  exact ⟨_, ts, rfl, copies, t, same ▸ rfl⟩

end Archives

end GameServer.Lua

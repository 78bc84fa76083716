import GameServer.Tools.Tables

/-!
# What the generated `Load()` finds again

A row is entered group by group (`run_group`, `run_groups`), row by row (`load_rows`), and a getter follows the
same keys in the same order (`get_eq`). So every row is found where the class is `Served`. Where it is not, one row
is enough to see it: a map is never written, an iterator is declared twice, or a key was never read.
-/

namespace GameServer.Tools

open GameServer.Lib GameServer.Lib.Nested

/-- The map of a group of `n` fields: rows stand at depth `n`, and maps above. -/
structure Shaped (T : Mapping) (n : Nat) : Prop where
  root : T.look [] = some .map
  inner : ∀ path, T.look path = some .map → path.length < n
  rows : ∀ path r, T.look path = some (.leaf r) → path.length = n

/-- A row has been entered under its keys. -/
structure Entered (T T' : Mapping) (keys : List Value) (row : Nat) : Prop where
  shaped : Shaped T' keys.length
  here : T'.look keys = some (.leaf (some row))
  others : ∀ path, path.length = keys.length → path ≠ keys → T'.look path = T.look path

section Lines

variable {T T' : Mapping} {n number count self : Nat} {path keys : List Value} {k : Value} {temp : String → Value} {store : Store} {env : Env}
  {group rest before : List ClassParam} {f g : ClassParam} {it : String} {base : Base} {type : MapType}

/-- The maps that are made for the keys of a row are no other rows. -/
theorem Entered.after {T'' : Mapping} (entered : Entered T' T'' keys self)
    (same : ∀ q, q.length = keys.length → T'.look q = T.look q) : Entered T T'' keys self := by
  refine ⟨entered.shaped, entered.here, ?_⟩
  intro q length other
  rw [entered.others q length other, same q length]

theorem Shaped.map_of (shaped : Shaped T n) (found : (T.look path).isSome) (lt : path.length < n) : T.look path = some .map := by
  obtain ⟨kind, here⟩ := Option.isSome_iff_exists.1 found
  cases kind with
  | map => exact here
  | leaf r => exact absurd (shaped.rows path r here) lt.ne

theorem Shaped.empty (pos : 0 < n) : Shaped .empty n := by
  refine ⟨rfl, ?_, ?_⟩
  · intro path here
    rw [look_empty] at here
    split at here
    next none' => rw [none']; exact pos
    next => cases here
  · intro path r here
    rw [look_empty] at here
    split at here <;> cases here

/-- An empty map is made at the end of a path. -/
theorem Shaped.grow (shaped : Shaped T n) (here : T.look path = some .map) (new : (T.look (path ++ [k])).isNone)
    (inner : path.length + 1 < n) : ∃ T', T.put path k .empty = some T' ∧ Shaped T' n ∧ T'.look (path ++ [k]) = some .map ∧
      ∀ q, q.length = n → T'.look q = T.look q := by
  obtain ⟨T', put, looks⟩ := look_put here k .empty
  have beyond : ∀ q, path ++ [k] <+: q → T.look q = none := by
    rintro q ⟨rest, rfl⟩
    by_contra found
    have found := look_of_append (Option.isSome_iff_ne_none.2 found)
    rw [Option.isNone_iff_eq_none.1 new] at found
    cases found
  have below : ∀ q, path ++ [k] <+: q → T'.look q = if q.drop (path.length + 1) = [] then some .map else none := by
    intro q le
    rw [looks, if_pos le, look_empty]
  refine ⟨T', put, ⟨?_, ?_, ?_⟩, ?_, ?_⟩
  · rw [looks, if_neg (by simp)]
    exact shaped.root
  · intro q here
    rw [looks] at here
    split at here
    next le =>
      rw [look_empty] at here
      split at here
      next none' =>
        have short := List.drop_eq_nil_iff.1 none'
        omega
      next => cases here
    next => exact shaped.inner q here
  · intro q r here
    rw [looks] at here
    split at here
    next le =>
      rw [look_empty] at here
      split at here <;> cases here
    next => exact shaped.rows q r here
  · rw [below _ (List.prefix_refl _), if_pos (by simp)]
  · intro q length
    by_cases le : path ++ [k] <+: q
    · rw [below q le, beyond q le, if_neg]
      intro none'
      have short := List.drop_eq_nil_iff.1 none'
      omega
    · rw [looks, if_neg le]

/-- The row is put in at the end of its keys. -/
theorem Shaped.enter (shaped : Shaped T n) (here : T.look path = some .map) (last : path.length + 1 = n) :
    ∃ T', T.put path k (.leaf (some self)) = some T' ∧ Entered T T' (path ++ [k]) self := by
  obtain ⟨T', put, looks⟩ := look_put here k (.leaf (some self))
  have length : (path ++ [k]).length = n := by simp [last]
  have whole : ∀ q : List Value, q.length = n → path ++ [k] <+: q → q = path ++ [k] := fun q same le =>
    (le.eq_of_length (length.trans same.symm)).symm
  have short : ∀ q, path ++ [k] <+: q → ∀ kind, T'.look q = some kind → q = path ++ [k] ∧ kind = .leaf (some self) := by
    rintro q ⟨rest, rfl⟩ kind found
    rw [looks, if_pos (List.prefix_append _ _)] at found
    have tail : (path ++ [k] ++ rest).drop (path.length + 1) = rest := List.drop_left' (by simp)
    rw [tail] at found
    cases rest with
    | nil => cases found; simp [kind]
    | cons j rest => cases found
  refine ⟨T', put, ⟨⟨?_, ?_, ?_⟩, ?_, ?_⟩⟩
  · rw [looks, if_neg (by simp)]
    exact shaped.root
  · intro q found
    rw [length]
    by_cases le : path ++ [k] <+: q
    · cases (short q le _ found).2
    · rw [looks, if_neg le] at found
      exact shaped.inner q found
  · intro q r found
    rw [length]
    by_cases le : path ++ [k] <+: q
    · rw [(short q le _ found).1, length]
    · rw [looks, if_neg le] at found
      exact shaped.rows q r found
  · rw [looks, if_pos (List.prefix_refl _)]
    simp [kind]
  · intro q same other
    rw [looks, if_neg]
    exact fun le => other (whole q (same.trans length) le)

theorem under_succ {d : Nat} {key : String} {value : MapType} (here : type.under d = some (.map key value)) :
    type.under (d + 1) = some value := by
  induction d generalizing type with
  | zero =>
    have whole : type.under 0 = some type := by cases type <;> rfl
    obtain rfl := Option.some.inj (whole.symm.trans here)
    cases value <;> rfl
  | succ d ih =>
    cases type with
    | row => cases here
    | map key' value' => exact ih here

/-- A line that looks for a key which more keys follow. -/
theorem run_find (temp : String → Value) (self : Nat) (it : String) (base : Base) (place : base.place env = some ⟨number, path⟩) (stored : store number = some (type, T))
    (under : type.under path.length = some (nest (f :: g :: rest))) (shaped : Shaped T n) (depth : path.length + 1 < n)
    (at_path : T.look path = some .map) (fresh : env.lookup it = none) : ∃ T',
      runLine temp self (store, env) (.find it base f) =
        some (Function.update store number (some (type, T')), (it, ⟨number, path ++ [temp f.name]⟩) :: env) ∧
      Shaped T' n ∧ T'.look (path ++ [temp f.name]) = some .map ∧ ∀ q, q.length = n → T'.look q = T.look q := by
  have typed : nest (f :: g :: rest) = .map f.type (.map g.type (nest rest)) := rfl
  rw [typed] at under
  by_cases found : (T.look (path ++ [temp f.name])).isSome
  · refine ⟨T, ?_, shaped, shaped.map_of found (by simpa using depth), fun _ _ => rfl⟩
    simp [runLine, fresh, place, stored, under, found]
  · obtain ⟨T', put, shaped', here, same⟩ := shaped.grow at_path (by simpa using found) depth
    refine ⟨T', ?_, shaped', here, same⟩
    simp only [Bool.not_eq_true, Option.isSome_eq_false_iff, Option.isNone_iff_eq_none] at found
    simp [runLine, fresh, place, stored, under, found, MapType.default, put]

/-- The line that enters the row. -/
theorem run_assign (temp : String → Value) (self : Nat) (base : Base) (place : base.place env = some ⟨number, path⟩) (stored : store number = some (type, T))
    (under : type.under path.length = some (nest [f])) (shaped : Shaped T (path.length + 1)) (at_path : T.look path = some .map) :
    ∃ T', runLine temp self (store, env) (.assign base f) = some (Function.update store number (some (type, T')), env) ∧
      Entered T T' (path ++ [temp f.name]) self := by
  obtain ⟨T', put, entered⟩ := shaped.enter (k := temp f.name) at_path rfl
  have typed : nest [f] = .map f.type .row := rfl
  refine ⟨T', ?_, entered⟩
  simp [runLine, place, stored, under, typed, put]

/-- The iterator that a line declares. -/
def LoadLine.declares : LoadLine → Option String
  | .assign _ _ => none
  | .find it _ _ => some it

@[simp] theorem declares_find (lines : List LoadLine) :
    (.find it base f :: lines).filterMap LoadLine.declares = it :: lines.filterMap LoadLine.declares := rfl

@[simp] theorem declares_assign (lines : List LoadLine) :
    (.assign base f :: lines).filterMap LoadLine.declares = lines.filterMap LoadLine.declares := rfl

theorem runLine_names {line : LoadLine} {s' : Store × Env} (run : runLine temp self (store, env) line = some s') :
    s'.2.map Prod.fst = line.declares.toList ++ env.map Prod.fst ∧ ∀ it ∈ line.declares, it ∉ env.map Prod.fst := by
  cases line with
  | assign base f =>
    simp only [runLine] at run
    obtain ⟨place, -, run⟩ := Option.bind_eq_some_iff.1 run
    obtain ⟨m, -, run⟩ := Option.bind_eq_some_iff.1 run
    split at run
    · obtain ⟨nested, -, rfl⟩ := Option.map_eq_some_iff.1 run
      exact ⟨rfl, by rintro it ⟨⟩⟩
    · cases run
  | find it base f =>
    simp only [runLine] at run
    split at run
    · cases run
    next fresh =>
      obtain ⟨place, -, run⟩ := Option.bind_eq_some_iff.1 run
      obtain ⟨m, -, run⟩ := Option.bind_eq_some_iff.1 run
      split at run
      · split at run
        · obtain ⟨nested, -, rfl⟩ := Option.map_eq_some_iff.1 run
          refine ⟨rfl, ?_⟩
          rintro _ ⟨⟩ listed
          obtain ⟨⟨_, place⟩, mem, rfl⟩ := List.mem_map.1 listed
          exact fresh (List.lookup_isSome_iff.2 ⟨_, mem, by simp⟩)
        · cases run
      · cases run

/-- The iterators of a body are declared one after the other, each of them once. -/
theorem run_names {lines : List LoadLine} {s' : Store × Env} (run : lines.foldlM (runLine temp self) (store, env) = some s') :
    s'.2.map Prod.fst = (lines.filterMap LoadLine.declares).reverse ++ env.map Prod.fst ∧
      ((env.map Prod.fst).Nodup → (s'.2.map Prod.fst).Nodup) := by
  induction lines generalizing store env with
  | nil =>
    cases run
    exact ⟨rfl, id⟩
  | cons line lines ih =>
    rw [List.foldlM_cons] at run
    obtain ⟨⟨store', env'⟩, first, run⟩ := Option.bind_eq_some_iff.1 run
    obtain ⟨names, fresh⟩ := runLine_names first
    obtain ⟨later, once⟩ := ih run
    dsimp only at names
    refine ⟨?_, ?_⟩
    · rw [later, names]
      cases declared : line.declares with
      | none => rw [List.filterMap_cons_none declared]; rfl
      | some it => rw [List.filterMap_cons_some declared, List.reverse_cons, List.append_assoc]; rfl
    · intro nodup
      apply once
      rw [names]
      cases declared : line.declares with
      | none => exact nodup
      | some it => exact List.nodup_cons.2 ⟨fresh it declared, nodup⟩

theorem lookup_eq_none_of_not_mem (notIn : it ∉ env.map Prod.fst) : env.lookup it = none := by
  by_contra found
  obtain ⟨e, mem, same⟩ := List.lookup_isSome_iff.1 (Option.isSome_iff_ne_none.2 found)
  exact notIn (List.mem_map.2 ⟨e, mem, (eq_of_beq same).symm⟩)

/-- A line that looks for a key, and the lines for the keys behind it. -/
theorem run_find_below {it : String} {base : Base} {lines : List LoadLine} (place : base.place env = some ⟨number, path⟩)
    (stored : store number = some (type, T)) (under : type.under path.length = some (nest (f :: g :: rest)))
    (shaped : Shaped T (path.length + 2 + rest.length)) (at_path : T.look path = some .map) (fresh : it ∉ env.map Prod.fst)
    (below : ∀ T', Shaped T' (path.length + 2 + rest.length) → T'.look (path ++ [temp f.name]) = some .map → ∃ T'' env',
      lines.foldlM (runLine temp self)
          (Function.update store number (some (type, T')), (it, (⟨number, path ++ [temp f.name]⟩ : Place)) :: env) =
        some (Function.update (Function.update store number (some (type, T'))) number (some (type, T'')), env') ∧
        Entered T' T'' (path ++ [temp f.name] ++ keysOf (g :: rest) temp) self) : ∃ T' env',
      (.find it base f :: lines).foldlM (runLine temp self) (store, env) =
        some (Function.update store number (some (type, T')), env') ∧ Entered T T' (path ++ keysOf (f :: g :: rest) temp) self := by
  obtain ⟨T', run, shaped', here, same⟩ :=
    run_find temp self it base place stored under shaped (by omega) at_path (lookup_eq_none_of_not_mem fresh)
  obtain ⟨T'', env', run', entered⟩ := below T' shaped' here
  have keys : path ++ [temp f.name] ++ keysOf (g :: rest) temp = path ++ keysOf (f :: g :: rest) temp := by simp [keysOf]
  rw [keys] at entered
  refine ⟨T'', env', ?_, ?_⟩
  · rw [List.foldlM_cons, run]
    simpa using run'
  · apply entered.after
    intro q length
    apply same q
    rw [length]
    simp [keysOf]
    omega

/-- The inner loop, by induction on the fields that are still to come. -/
theorem run_writeNext (stored : store number = some (type, T)) (under : type.under path.length = some (nest (f :: rest)))
    (shaped : Shaped T (path.length + 1 + rest.length)) (at_path : T.look path = some .map)
    (pre : env.lookup (map_tempit number (rest.length + 1)) = some ⟨number, path⟩)
    (nodup : ((writeNext number (rest.length + 1) f rest).filterMap LoadLine.declares ++ env.map Prod.fst).Nodup) : ∃ T' env',
      (writeNext number (rest.length + 1) f rest).foldlM (runLine temp self) (store, env) =
        some (Function.update store number (some (type, T')), env') ∧ Entered T T' (path ++ keysOf (f :: rest) temp) self := by
  induction rest generalizing f path T store env with
  | nil =>
    obtain ⟨T', run, entered⟩ := run_assign temp self (.second (map_tempit number 1)) pre stored under shaped at_path
    exact ⟨T', env, by simp [writeNext, run], entered⟩
  | cons g rest ih =>
    have lines : writeNext number ((g :: rest).length + 1) f (g :: rest) =
        .find (map_tempit number (rest.length + 1)) (.second (map_tempit number (rest.length + 2))) f ::
          writeNext number (rest.length + 1) g rest := rfl
    have deeper : path.length + 1 + (g :: rest).length = path.length + 2 + rest.length := by
      rw [List.length_cons]
      omega
    rw [lines, declares_find, List.cons_append] at nodup
    rw [deeper] at shaped
    rw [lines]
    refine run_find_below pre stored under shaped at_path
      (fun mem => (List.nodup_cons.1 nodup).1 (List.mem_append_right _ mem)) fun T' shaped' here => ?_
    have depth : path.length + 2 + rest.length = (path ++ [temp f.name]).length + 1 + rest.length := by simp
    exact ih (Function.update_self _ _ _) (by rw [List.length_append]; exact under_succ under) (depth ▸ shaped') here (by simp)
      (List.nodup_middle.2 nodup)

/-- The lines of one group of more than one field. -/
theorem run_group (stored : store number = some (nest (f :: g :: rest), T)) (shaped : Shaped T (rest.length + 2))
    (nodup : ((groupLines number f g rest).filterMap LoadLine.declares ++ env.map Prod.fst).Nodup) : ∃ T' env',
      (groupLines number f g rest).foldlM (runLine temp self) (store, env) =
        some (Function.update store number (some (nest (f :: g :: rest), T')), env') ∧ Entered T T' (keysOf (f :: g :: rest) temp) self := by
  rw [groupLines, declares_find, List.cons_append] at nodup
  have whole : (nest (f :: g :: rest)).under ([] : List Value).length = some (nest (f :: g :: rest)) := rfl
  have deeper : rest.length + 2 = ([] : List Value).length + 2 + rest.length := by
    rw [List.length_nil]
    omega
  rw [deeper] at shaped
  have place : (Base.mappings number).place env = some ⟨number, []⟩ := rfl
  refine run_find_below place stored whole shaped shaped.root
    (fun mem => (List.nodup_cons.1 nodup).1 (List.mem_append_right _ mem)) fun T' shaped' here => ?_
  exact run_writeNext (Function.update_self _ _ _) (under_succ whole) shaped' here (by simp) (List.nodup_middle.2 nodup)

variable {groups : List (List ClassParam)} {tttt : Nat}

/-- The maps of the groups, from `mappings_tttt` on. -/
def Stored (tttt : Nat) (groups : List (List ClassParam)) (store : Store) : Prop :=
  ∀ k group, groups[k]? = some group → ∃ T, store (tttt + k) = some (nest group, T) ∧ Shaped T group.length

/-- **One row, in all groups**: the lines agree with the declared maps where no group of one field comes before another. -/
theorem run_groups (multi : ∀ group ∈ groups.dropLast, 2 ≤ group.length) (filled : ∀ group ∈ groups, group ≠ [])
    (nodup : ((loadLines tttt groups).filterMap LoadLine.declares ++ env.map Prod.fst).Nodup) (stored : Stored tttt groups store) :
    ∃ store' env', (loadLines tttt groups).foldlM (runLine temp self) (store, env) = some (store', env') ∧
      (∀ m < tttt, store' m = store m) ∧
      ∀ k group T, groups[k]? = some group → store (tttt + k) = some (nest group, T) →
        ∃ T', store' (tttt + k) = some (nest group, T') ∧ Entered T T' (keysOf group temp) self := by
  induction groups generalizing tttt store env with
  | nil =>
    refine ⟨store, env, rfl, fun _ _ => rfl, ?_⟩
    intro k group T here
    simp at here
  | cons group groups ih =>
    obtain ⟨T, here, shaped⟩ := stored 0 group rfl
    rw [Nat.add_zero] at here
    match group, filled group List.mem_cons_self with
    | [f], _ =>
      obtain rfl : groups = [] := by
        cases groups with
        | nil => rfl
        | cons g groups =>
          have two := multi [f] (by simp)
          simp at two
      obtain ⟨T', run, entered⟩ := run_assign temp self (.mappings tttt) (show Base.place env (.mappings tttt) = _ from rfl) here rfl
        shaped shaped.root
      refine ⟨Function.update store tttt (some (nest [f], T')), env, by simp [loadLines, run], fun m lt => Function.update_of_ne lt.ne _ _, ?_⟩
      intro k group U at_k there
      obtain rfl : k = 0 := by
        by_contra more
        obtain ⟨k, rfl⟩ := Nat.exists_eq_succ_of_ne_zero more
        simp at at_k
      cases at_k
      rw [Nat.add_zero, here] at there
      cases there
      exact ⟨T', Function.update_self _ _ _, entered⟩
    | f :: g :: rest, _ =>
      rw [loadLines, List.filterMap_append] at nodup
      have nodupGroup : ((groupLines tttt f g rest).filterMap LoadLine.declares ++ env.map Prod.fst).Nodup :=
        nodup.sublist ((List.sublist_append_left _ _).append (List.Sublist.refl _))
      obtain ⟨T', env', run, entered⟩ := run_group here shaped nodupGroup
      have names := (run_names run).1
      have multi' : ∀ group ∈ groups.dropLast, 2 ≤ group.length := by
        intro group mem
        refine multi group ?_
        cases groups with
        | nil => cases mem
        | cons => exact List.mem_cons_of_mem _ mem
      have nodup' : ((loadLines (tttt + 1) groups).filterMap LoadLine.declares ++ env'.map Prod.fst).Nodup := by
        dsimp only at names
        rw [names]
        refine (List.Perm.nodup_iff ?_).1 nodup
        rw [List.append_assoc]
        refine (List.perm_append_comm_assoc _ _ _).trans ?_
        exact (((List.reverse_perm _).symm).append_right _).append_left _
      have stored' : Stored (tttt + 1) groups (Function.update store tttt (some (nest (f :: g :: rest), T'))) := by
        intro k group at_k
        obtain ⟨U, there, shapedU⟩ := stored (k + 1) group at_k
        refine ⟨U, ?_, shapedU⟩
        rw [Function.update_of_ne (by omega), ← there]
        congr 1
        omega
      obtain ⟨store', env'', run', below, after⟩ := ih multi' (fun group mem => filled group (List.mem_cons_of_mem _ mem)) nodup' stored'
      refine ⟨store', env'', ?_, ?_, ?_⟩
      · rw [loadLines, List.foldlM_append, run]
        exact run'
      · intro m lt
        rw [below m (by omega), Function.update_of_ne lt.ne]
      · intro k group U at_k there
        cases k with
        | zero =>
          cases at_k
          rw [Nat.add_zero, here] at there
          cases there
          exact ⟨T', by rw [Nat.add_zero, below tttt (Nat.lt_succ_self _), Function.update_self], entered⟩
        | succ k =>
          have there' : (Function.update store tttt (some (nest (f :: g :: rest), T'))) (tttt + 1 + k) = some (nest group, U) := by
            rw [Function.update_of_ne (by omega), ← there]
            congr 1
            omega
          obtain ⟨U', result, entered'⟩ := after k group U at_k there'
          refine ⟨U', ?_, entered'⟩
          rw [← result]
          congr 1
          omega

end Lines

section Loads

variable {item : ClassItem} {memory : Nat → String → Value} {row : Row} {rows : List Row} {store store' : Store} {group : List ClassParam}
  {k self number : Nat} {args : List Value} {T : Mapping}

/-- The iterators of `Load()`, group by group. -/
theorem declares_writeNext (number : Nat) (f : ClassParam) (rest : List ClassParam) :
    (writeNext number (rest.length + 1) f rest).filterMap LoadLine.declares = (List.range' 1 rest.length).reverse.map (map_tempit number) := by
  induction rest generalizing f with
  | nil => rfl
  | cons g rest ih =>
    have lines : writeNext number ((g :: rest).length + 1) f (g :: rest) =
        .find (map_tempit number (rest.length + 1)) (.second (map_tempit number (rest.length + 2))) f ::
          writeNext number (rest.length + 1) g rest := rfl
    rw [lines, declares_find, ih, List.length_cons, List.range'_1_concat]
    simp [Nat.add_comm]

theorem declares_loadLines {groups : List (List ClassParam)} (tttt : Nat) (multi : ∀ group ∈ groups.dropLast, 2 ≤ group.length)
    (filled : ∀ group ∈ groups, group ≠ []) :
    (loadLines tttt groups).filterMap LoadLine.declares = (groups.mapIdx fun k group => iterators (tttt + k) group).flatten := by
  induction groups generalizing tttt with
  | nil => rfl
  | cons group groups ih =>
    have filled' := fun group mem => filled group (List.mem_cons_of_mem _ mem)
    match group, filled group List.mem_cons_self with
    | [f], _ =>
      obtain rfl : groups = [] := by
        cases groups with
        | nil => rfl
        | cons g groups =>
          have two := multi [f] (by simp)
          simp at two
      rfl
    | f :: g :: rest, _ =>
      have multi' : ∀ group ∈ groups.dropLast, 2 ≤ group.length := by
        intro group mem
        refine multi group ?_
        cases groups with
        | nil => cases mem
        | cons => exact List.mem_cons_of_mem _ mem
      have first : (groupLines tttt f g rest).filterMap LoadLine.declares = iterators tttt (f :: g :: rest) := by
        rw [groupLines, declares_find, declares_writeNext, iterators]
        simp [List.range'_1_concat, Nat.add_comm]
      rw [loadLines, List.filterMap_append, first, ih (tttt + 1) multi' filled', List.mapIdx_cons, List.flatten_cons]
      simp [Nat.add_assoc, Nat.add_comm 1]

theorem load_row (built : Built item) (multi : ∀ group ∈ item.groups.dropLast, 2 ≤ group.length)
    (once : (item.groups.mapIdx fun k group => iterators (k + 1) group).flatten.Nodup) (stored : Stored 1 item.groups store)
    (memory : String → Value) (row : Row) (self : Nat) : ∃ store', loadRow item memory row self store = some store' ∧
      Stored 1 item.groups store' ∧ ∀ k group T, item.groups[k]? = some group → store (1 + k) = some (nest group, T) →
        ∃ T', store' (1 + k) = some (nest group, T') ∧ Entered T T' (keysOf group (readRow item row memory)) self := by
  have declares := declares_loadLines 1 multi built.filled_groups
  have nodup : ((loadLines 1 item.groups).filterMap LoadLine.declares ++ ([] : Env).map Prod.fst).Nodup := by
    rw [declares, List.map_nil, List.append_nil]
    simpa [Nat.add_comm] using once
  obtain ⟨store', env', run, -, entered⟩ := run_groups multi built.filled_groups nodup stored
  refine ⟨store', ?_, ?_, entered⟩
  · rw [loadRow, built.load_eq, run]
    rfl
  · intro k group here
    obtain ⟨T, there, -⟩ := stored k group here
    obtain ⟨T', result, enter⟩ := entered k group T here there
    have length : (keysOf group (readRow item row memory)).length = group.length := by simp [keysOf]
    exact ⟨T', result, length ▸ enter.shaped⟩

/-- The rows one after the other: the last row of its keys stays, and nothing else is entered. -/
theorem load_rows (built : Built item) (multi : ∀ group ∈ item.groups.dropLast, 2 ≤ group.length)
    (once : (item.groups.mapIdx fun k group => iterators (k + 1) group).flatten.Nodup) (stored : Stored 1 item.groups store)
    (memory : Nat → String → Value) (self : Nat) (rows : List Row) : ∃ store', loadRows item memory self rows store = some store' ∧
      ∀ k group T, item.groups[k]? = some group → store (1 + k) = some (nest group, T) → ∃ T', store' (1 + k) = some (nest group, T') ∧
        (∀ path, path.length = group.length → (∀ i row, rows[i]? = some row → keysOf group (readRow item row (memory (self + i))) ≠ path) →
          T'.look path = T.look path) ∧
        ∀ i row, rows[i]? = some row → (∀ j row', i < j → rows[j]? = some row' →
          keysOf group (readRow item row' (memory (self + j))) ≠ keysOf group (readRow item row (memory (self + i)))) →
            T'.look (keysOf group (readRow item row (memory (self + i)))) = some (.leaf (some (self + i))) := by
  induction rows generalizing self store with
  | nil =>
    refine ⟨store, rfl, ?_⟩
    intro k group T _ there
    exact ⟨T, there, fun _ _ _ => rfl, fun i row here => by simp at here⟩
  | cons row rows ih =>
    obtain ⟨store', first, stored', entered⟩ := load_row built multi once stored (memory self) row self
    obtain ⟨store'', run, after⟩ := ih stored' (self + 1)
    refine ⟨store'', by simp [loadRows, first, run], ?_⟩
    intro k group T here there
    obtain ⟨T', there', enter⟩ := entered k group T here there
    obtain ⟨T'', there'', same, found⟩ := after k group T' here there'
    have length : ∀ o : String → Value, (keysOf group o).length = group.length := fun o => by simp [keysOf]
    have shift : ∀ i, self + 1 + i = self + (i + 1) := fun i => by omega
    refine ⟨T'', there'', ?_, ?_⟩
    · intro path length' other
      have notFirst : path ≠ keysOf group (readRow item row (memory self)) := Ne.symm (other 0 row rfl)
      rw [same path length' fun i row' at_i => by rw [shift]; exact other (i + 1) row' at_i]
      exact enter.others path (length'.trans (length _).symm) notFirst
    · intro i row' at_i later
      cases i with
      | zero =>
        cases at_i
        rw [Nat.add_zero] at later ⊢
        rw [same _ (length _) fun i row' at_i => by rw [shift]; exact later (i + 1) row' (Nat.succ_pos i) at_i]
        exact enter.here
      | succ i =>
        have last := found i row' at_i fun j row'' lt at_j => by
          rw [shift, shift]
          exact later (j + 1) row'' (Nat.succ_lt_succ lt) at_j
        rwa [shift] at last

theorem declared_stored (built : Built item) {k : Nat} (here : item.groups[k]? = some group) :
    declared item (1 + k) = some (nest group, .empty) := by
  have filled := built.filled_groups group (List.mem_of_getElem? here)
  obtain ⟨f, rest, rfl⟩ := List.exists_cons_of_ne_nil filled
  rw [Nat.add_comm, declared, built.param_eq, List.getElem?_map, here]
  rfl

theorem stored_declared (built : Built item) : Stored 1 item.groups (declared item) := by
  intro k group here
  refine ⟨.empty, declared_stored built here, Shaped.empty ?_⟩
  exact List.length_pos_iff.2 (built.filled_groups group (List.mem_of_getElem? here))

/-! ### The getters -/

/-- What a getter of so many keys returns. -/
theorem get_eq (built : Built item) (here : item.groups[k]? = some group) (stored : store (1 + k) = some (nest group, T))
    (full : args.length = group.length) {count : Nat} (le : count ≤ group.length) :
    Get item store (k + 1) args count =
      some (match T.atPath (args.take count) with | none => .null | some t => .to (nest (group.drop count)) t) := by
  induction count with
  | zero =>
    rw [Nat.add_comm] at stored
    simp [Get, stored]
  | succ count ih =>
    have before := ih (Nat.le_of_succ_le le)
    have lt : count < group.length := le
    have getter := find_getter built here lt
    have arg : args[count]? = some args[count] := List.getElem?_eq_getElem (full ▸ lt)
    have param : (group.take (count + 1))[count]? = some group[count] := by
      rw [List.getElem?_take_of_lt (Nat.lt_succ_self _), List.getElem?_eq_getElem lt]
    have type : nest (group.drop count) = .map group[count].type (nest (group.drop (count + 1))) := by
      rw [List.drop_eq_getElem_cons lt]
      rfl
    have whole : count + 1 = group.length ↔ nest (group.drop (count + 1)) = .row := by
      constructor
      · intro last
        rw [List.drop_of_length_le last.ge]
        rfl
      · intro last
        by_contra more
        have lt' : count + 1 < group.length := by omega
        rw [List.drop_eq_getElem_cons lt'] at last
        cases last
    have path : T.atPath (args.take (count + 1)) = (T.atPath (args.take count)).bind fun t => t.find args[count] := by
      rw [List.take_succ_eq_append_getElem (full ▸ lt), atPath_append]
      refine congrArg _ (funext fun t => ?_)
      rw [atPath_cons]
      cases t.find args[count] <;> simp
    rw [Get, getter, Option.bind_some, before, Option.bind_some, path]
    cases T.atPath (args.take count) with
    | none => rfl
    | some t =>
      cases found : t.find args[count] <;> simp [getterOf, type, arg, param, whole, found]

theorem get_row (built : Built item) (here : item.groups[k]? = some group) (stored : store (1 + k) = some (nest group, T))
    (full : args.length = group.length) : (Get item store (k + 1) args group.length).bind Ptr.row =
      (T.look args).bind fun kind => match kind with | .leaf r => r | .map => none := by
  rw [get_eq built here stored full le_rfl, ← full, List.take_length, Option.bind_some, look]
  cases T.atPath args with
  | none => rfl
  | some t => cases t <;> rfl

/-! ### Members -/

theorem readRow_eq (name : String) (memory : String → Value) (row : Row) (params : List ClassParam) :
    params.foldl (fun temp p => if p.Read then Function.update temp p.name (row p.name) else temp) memory name =
      if ∃ p ∈ params, p.name = name ∧ p.Read then row name else memory name := by
  induction params generalizing memory with
  | nil => simp
  | cons p params ih =>
    rw [List.foldl_cons, ih]
    by_cases later : ∃ p ∈ params, p.name = name ∧ p.Read
    · rw [if_pos later, if_pos]
      obtain ⟨q, mem, good⟩ := later
      exact ⟨q, List.mem_cons_of_mem _ mem, good⟩
    · rw [if_neg later]
      by_cases here : p.name = name ∧ p.Read
      · rw [if_pos here.2, here.1, Function.update_self, if_pos ⟨p, List.mem_cons_self, here⟩]
      · rw [if_neg (show ¬ ∃ q ∈ p :: params, q.name = name ∧ q.Read by
          rintro ⟨q, mem, good⟩
          rcases List.mem_cons.1 mem with rfl | mem
          · exact here good
          · exact later ⟨q, mem, good⟩)]
        split
        next read => exact Function.update_of_ne (fun same => here ⟨same.symm, read⟩) _ _
        next => rfl

theorem readRow_of_read {p : ClassParam} (mem : p ∈ item.params) (read : p.Read) (memory : String → Value) :
    readRow item row memory p.name = row p.name := by
  rw [readRow, readRow_eq, if_pos ⟨p, mem, rfl, read⟩]

theorem readRow_of_not_read {p : ClassParam} (names : (item.params.map ClassParam.name).Nodup) (mem : p ∈ item.params) (unread : ¬ p.Read)
    (memory : String → Value) : readRow item row memory p.name = memory p.name := by
  rw [readRow, readRow_eq, if_neg]
  rintro ⟨q, memQ, same, read⟩
  obtain rfl := List.inj_on_of_nodup_map names memQ mem same
  exact unread read

theorem Built.member (built : Built item) (mem : group ∈ item.groups) {p : ClassParam} (listed : p ∈ group) : p ∈ item.params := by
  obtain ⟨e, at_e, rfl⟩ := List.mem_map.1 mem
  exact built.members e at_e p listed

/-! ### Served classes -/

theorem finds_of_served (built : Built item) (served : Served item) : Finds item := by
  intro memory rows distinct
  obtain ⟨store, run, entered⟩ := load_rows built served.multi served.iterators (stored_declared built) memory 0 rows
  refine ⟨store, by rw [Load, if_pos served.names, run], ?_⟩
  intro k group here i row at_i
  have mem := List.mem_of_getElem? here
  obtain ⟨T, there, -, found⟩ := entered k group .empty here (declared_stored built here)
  have keys : ∀ (row : Row) (memory : String → Value), keysOf group (readRow item row memory) = keysOf group row := fun row memory =>
    List.map_congr_left fun p listed => readRow_of_read (built.member mem listed) (served.loaded group mem p listed) memory
  simp only [keys, Nat.zero_add] at found
  have looks := found i row at_i fun j row' lt at_j same => by
    have first : (rows.map (keysOf group))[i]? = some (keysOf group row) := by rw [List.getElem?_map, at_i]; rfl
    have second : (rows.map (keysOf group))[j]? = some (keysOf group row') := by rw [List.getElem?_map, at_j]; rfl
    have bound : i < (rows.map (keysOf group)).length := (List.getElem?_eq_some_iff.1 first).1
    have equal := (List.getElem?_inj bound (distinct group mem)).1 (first.trans ((congrArg some same.symm).trans second.symm))
    omega
  rw [get_row built here there (by simp [keysOf]), looks]
  rfl

/-! ### Classes that are not served -/

/-- Where a line looks. -/
def LoadLine.base : LoadLine → Base
  | .assign base _ => base
  | .find _ base _ => base

theorem base_writeNext (number count : Nat) (f : ClassParam) (rest : List ClassParam) :
    ∀ line ∈ writeNext number count f rest, ∀ m, line.base ≠ .mappings m := by
  induction rest generalizing count f with
  | nil =>
    intro line mem m
    rw [List.mem_singleton.1 mem]
    simp [LoadLine.base]
  | cons g rest ih =>
    intro line mem m
    rcases List.mem_cons.1 mem with rfl | mem
    · simp [LoadLine.base]
    · exact ih (count - 1) g line mem m

/-- The numbers of the maps that are written: a group of one field that is not the last one keeps them below the number
of the last group. -/
theorem mappings_loadLines (tttt : Nat) (groups : List (List ClassParam)) : ∀ line ∈ loadLines tttt groups, ∀ m, line.base = .mappings m →
    m < tttt + groups.length ∧ ((∃ group ∈ groups.dropLast, group.length < 2) → m + 1 < tttt + groups.length) := by
  induction groups generalizing tttt with
  | nil =>
    intro line mem
    cases mem
  | cons group groups ih =>
    have short : (∃ g ∈ (group :: groups).dropLast, g.length < 2) → groups ≠ [] := by
      rintro ⟨g, mem, -⟩ rfl
      cases mem
    have length : groups ≠ [] → 0 < groups.length := List.length_pos_iff.2
    rw [List.length_cons]
    intro line mem m at_m
    have later : ∀ tttt', tttt' ≤ tttt → line ∈ loadLines tttt' groups → m < tttt + (groups.length + 1) ∧
        ((∃ g ∈ (group :: groups).dropLast, g.length < 2) → m + 1 < tttt + (groups.length + 1)) := by
      intro tttt' le mem
      have bound := (ih tttt' line mem m at_m).1
      exact ⟨by omega, fun _ => by omega⟩
    match group with
    | [] => exact later tttt le_rfl mem
    | [f] =>
      rcases List.mem_cons.1 mem with rfl | mem
      · cases at_m
        refine ⟨by omega, fun exists' => ?_⟩
        have pos := length (short exists')
        omega
      · exact later tttt le_rfl mem
    | f :: g :: rest =>
      rcases List.mem_append.1 mem with mem | mem
      · rcases List.mem_cons.1 mem with rfl | mem
        · cases at_m
          refine ⟨by omega, fun exists' => ?_⟩
          have pos := length (short exists')
          omega
        · exact absurd at_m (base_writeNext _ _ _ _ line mem m)
      · obtain ⟨bound, strict⟩ := ih (tttt + 1) line mem m at_m
        refine ⟨by omega, ?_⟩
        rintro ⟨h, memH, two⟩
        have inside : ∃ group ∈ groups.dropLast, group.length < 2 := by
          refine ⟨h, ?_, two⟩
          cases groups with
          | nil => cases memH
          | cons next groups =>
            rcases List.mem_cons.1 memH with rfl | memH
            · have long : ¬ (f :: g :: rest).length < 2 := by simp
              exact absurd two long
            · exact memH
        have lt := strict inside
        omega

/-- A map that no line begins with stays as it is. -/
theorem run_untouched {temp : String → Value} {env : Env} {lines : List LoadLine} {s' : Store × Env}
    (run : lines.foldlM (runLine temp self) (store, env) = some s') (bases : ∀ line ∈ lines, line.base ≠ .mappings number)
    (places : ∀ e ∈ env, e.2.number ≠ number) : s'.1 number = store number := by
  induction lines generalizing store env with
  | nil =>
    cases run
    rfl
  | cons line lines ih =>
    rw [List.foldlM_cons] at run
    obtain ⟨⟨store', env'⟩, first, run⟩ := Option.bind_eq_some_iff.1 run
    have elsewhere : ∀ place, line.base.place env = some place → place.number ≠ number := by
      intro place at_place
      have here := bases line List.mem_cons_self
      cases base : line.base with
      | mappings m =>
        rw [base] at at_place here
        cases at_place
        intro same
        exact here (congrArg Base.mappings same)
      | second it =>
        rw [base] at at_place
        exact places _ (mem_of_lookup at_place)
    have kept : store' number = store number ∧ ∀ e ∈ env', e.2.number ≠ number := by
      cases line with
      | assign base f =>
        obtain ⟨place, at_place, first⟩ := Option.bind_eq_some_iff.1 first
        obtain ⟨m, -, first⟩ := Option.bind_eq_some_iff.1 first
        split at first
        · obtain ⟨nested, -, written⟩ := Option.map_eq_some_iff.1 first
          cases written
          exact ⟨Function.update_of_ne (elsewhere place at_place).symm _ _, places⟩
        · cases first
      | find it base f =>
        simp only [runLine] at first
        split at first
        · cases first
        · obtain ⟨place, at_place, first⟩ := Option.bind_eq_some_iff.1 first
          obtain ⟨m, -, first⟩ := Option.bind_eq_some_iff.1 first
          split at first
          · split at first
            · obtain ⟨nested, -, written⟩ := Option.map_eq_some_iff.1 first
              cases written
              have other := elsewhere place at_place
              refine ⟨Function.update_of_ne other.symm _ _, ?_⟩
              intro e mem
              rcases List.mem_cons.1 mem with rfl | mem
              · exact other
              · exact places e mem
            · cases first
          · cases first
    rw [ih run (fun line mem => bases line (List.mem_cons_of_mem _ mem)) kept.2, kept.1]

/-- A row whose members are all read as `0`, over memory full of ones: it is enough to see what a class lacks. -/
theorem served_of_finds (built : Built item) (finds : Finds item) : Served item := by
  obtain ⟨store, load, found⟩ := finds (fun _ _ => .int 1) [fun _ => .int 0] (fun group _ => List.nodup_singleton _)
  have names : (item.params.map ClassParam.name).Nodup := by
    by_contra twice
    rw [Load, if_neg twice] at load
    cases load
  rw [Load, if_pos names] at load
  obtain ⟨store', body, rest⟩ := Option.bind_eq_some_iff.1 load
  obtain rfl : store' = store := Option.some.inj rest
  obtain ⟨⟨store'', env⟩, run, rfl⟩ := Option.map_eq_some_iff.1 body
  rw [built.load_eq] at run
  have row_found : ∀ k group, item.groups[k]? = some group →
      (Get item store'' (k + 1) (keysOf group fun _ => .int 0) group.length).bind Ptr.row = some 0 := fun k group here =>
    found k group here 0 _ rfl
  -- the map of the last group is never written
  have multi : ∀ group ∈ item.groups.dropLast, 2 ≤ group.length := by
    by_contra single
    have single : ∃ group ∈ item.groups.dropLast, group.length < 2 := by simpa using single
    have pos : 0 < item.groups.length := by
      obtain ⟨group, mem, -⟩ := single
      exact List.length_pos_of_mem (List.mem_of_mem_dropLast mem)
    have here : item.groups[item.groups.length - 1]? = some (item.groups[item.groups.length - 1]) := List.getElem?_eq_getElem (by omega)
    have untouched : store'' item.groups.length = declared item item.groups.length := run_untouched run (fun line mem same => by
      have lt := (mappings_loadLines 1 item.groups line mem _ same).2 single
      omega) (by rintro e ⟨⟩)
    have last : 1 + (item.groups.length - 1) = item.groups.length := by omega
    have stored := declared_stored built here
    rw [last, ← untouched] at stored
    have missing := row_found _ _ here
    rw [get_row built here (by rw [last]; exact stored) (by simp [keysOf]), look_empty, if_neg] at missing
    · cases missing
    · intro none'
      have filled := built.filled_groups _ (List.mem_of_getElem? here)
      exact filled (List.map_eq_nil_iff.1 none')
  -- an iterator that is declared twice does not compile
  have iterators : (item.groups.mapIdx fun k group => iterators (k + 1) group).flatten.Nodup := by
    obtain ⟨declares, once⟩ := run_names run
    have nodup := once List.nodup_nil
    rw [declares, List.map_nil, List.append_nil, List.nodup_reverse, declares_loadLines 1 multi built.filled_groups] at nodup
    simpa [Nat.add_comm] using nodup
  refine ⟨names, multi, iterators, ?_⟩
  -- a key that was not read is not the row's
  intro group mem p listed
  by_contra unread
  obtain ⟨k, here⟩ := List.mem_iff_getElem?.1 mem
  obtain ⟨store', loaded, entered⟩ := load_rows built multi iterators (stored_declared built) (fun _ _ => .int 1) 0 [fun _ => .int 0]
  rw [load] at loaded
  cases loaded
  obtain ⟨T, there, same, -⟩ := entered k group .empty here (declared_stored built here)
  have other : ∀ (i : Nat) (row : Row), [(fun _ => .int 0 : Row)][i]? = some row →
      keysOf group (readRow item row fun _ => .int 1) ≠ keysOf group fun _ => .int 0 := by
    intro i row _ equal
    have at_p := List.map_inj_left.1 equal p listed
    dsimp only at at_p
    rw [readRow_of_not_read names (built.member mem listed) unread] at at_p
    cases at_p
  have missing := row_found k group here
  rw [get_row built here there (by simp [keysOf]), same _ (by simp [keysOf]) other, look_empty, if_neg] at missing
  · cases missing
  · intro none'
    rw [List.map_eq_nil_iff.1 none'] at listed
    cases listed

end Loads

/-- **Which classes find what they load.** Of a class that `loadclasses` accepts every full-arity getter finds every row, for
all rows with distinct keys, if and only if the class is `Served`. -/
theorem load_finds {fields : List ClassParam} {item : ClassItem} (accepted : loadclasses fields = some item) : Finds item ↔ Served item := by
  have built := Built.of_loadclasses accepted
  exact ⟨served_of_finds built, finds_of_served built⟩

/-- A group of three fields and a group of one. -/
def talk : ClassItem :=
  let action_id : ClassParam := ⟨"int32", "action_id", 1, 1, 0⟩
  let npc_name : ClassParam := ⟨"xstring", "npc_name", 1, 2, 0⟩
  let content : ClassParam := ⟨"xstring", "content", 2, 1, 0⟩
  let talk_content : ClassParam := ⟨"xstring", "talk_content", 1, 3, 0⟩
  ⟨[action_id, npc_name, content, talk_content], [(1, [action_id, npc_name, talk_content]), (2, [content])],
    [(1, [.map "xstring" .row, .map "xstring" (.map "xstring" .row), .map "int32" (.map "xstring" (.map "xstring" .row))]),
      (2, [.map "xstring" .row])]⟩

theorem load_finds_talk : loadclasses [⟨"int32", "action_id", 1, 1, 0⟩, ⟨"string", "npc_name", 1, 2, 0⟩, ⟨"string", "content", 2, 1, 0⟩,
    ⟨"string", "talk_content", 1, 3, 0⟩] = some talk ∧ Finds talk := by
  have accepted : loadclasses [⟨"int32", "action_id", 1, 1, 0⟩, ⟨"string", "npc_name", 1, 2, 0⟩, ⟨"string", "content", 2, 1, 0⟩,
      ⟨"string", "talk_content", 1, 3, 0⟩] = some talk := by decide
  exact ⟨accepted, (load_finds accepted).2 ⟨by decide, by decide, by decide, by decide⟩⟩

/-- Two groups of one field. -/
def pair : ClassItem :=
  let id : ClassParam := ⟨"int32", "id", 1, 1, 0⟩
  let num : ClassParam := ⟨"int32", "num", 2, 1, 0⟩
  ⟨[id, num], [(1, [id]), (2, [num])], [(1, [.map "int32" .row]), (2, [.map "int32" .row])]⟩

/-- `Load()` enters both keys in `mappings_1`, and `Get2` looks in `mappings_2`. -/
theorem load_loses : loadclasses [⟨"int32", "id", 1, 1, 0⟩, ⟨"int32", "num", 2, 1, 0⟩] = some pair ∧ ¬ Finds pair := by
  refine ⟨by decide, fun finds => ?_⟩
  obtain ⟨store, load, found⟩ := finds (fun _ _ => .int 1) [fun _ => .int 0] (fun group _ => List.nodup_singleton _)
  have row := found 1 [⟨"int32", "num", 2, 1, 0⟩] rfl 0 _ rfl
  have lost : (Load pair (fun _ _ => .int 1) [fun _ => .int 0]).bind (fun store => (Get pair store 2 [.int 0] 1).bind Ptr.row) = none := by
    decide
  rw [load] at lost
  cases lost.symm.trans row

end GameServer.Tools

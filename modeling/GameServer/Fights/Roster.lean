import GameServer.Fights.FightInfo

/-!
# The roster of a fight

`Roster` says that the five containers describe the same fighters. Adding a fighter that is absent keeps it, removing one
that has no shot left in the round keeps it, and so do `Update` and `RandOver`. The other two cases break it: `AddPlayer`
counts a fighter that is present once more, and `RemovePlayer` leaves the fighter's shot in `ShotSequence`.
-/

namespace GameServer.Fights

open GameServer.Lib

variable {w : Fighters} {std : StdSort} {debug : Bool} {s t : FightInfo} {p q : FightBase} {pos : Nat} {calls : List Call}

inductive Op where
  | AddPlayer (p : FightBase) (pos : Nat)
  | RemovePlayer (p : FightBase)
  | Update
  | RandOver (p : FightBase)

/-- A call of one of the member functions. -/
def step (w : Fighters) (std : StdSort) (debug : Bool) (s : FightInfo) : Op → Option FightInfo
  | .AddPlayer p pos => s.AddPlayer w p pos
  | .RemovePlayer p => s.RemovePlayer w p
  | .Update => (s.Update w std debug).map Prod.fst
  | .RandOver p => (s.RandOver w std debug p).map Prod.fst

/-- Every entry is under its fighter. -/
def Keyed (Players : OrderedMap FightBase PlayerFightInfo) : Prop :=
  ∀ p it, Players.find p = some it → it.player = p

def InMap (Maps : List (Finset FightBase)) (pos : Nat) (p : FightBase) : Prop := ∃ map, Maps[pos]? = some map ∧ p ∈ map

/-- What the containers say of the fighters is the same. -/
structure Roster (w : Fighters) (s : FightInfo) : Prop where
  yisus : Counts s.Yisus (s.Players.keys.map w.GetYisu)
  gongsus : Counts s.Gongsus (s.Players.keys.map w.GetGongsu)
  maps : ∀ pos p, InMap s.Maps pos p ↔ ∃ it, s.Players.find p = some it ∧ it.pos = pos
  shots : ∀ temp ∈ s.ShotSequence, temp.player ∈ s.Players.keys

/-- A fighter is added once, and is not removed while it has a shot left. -/
def Proper (s : FightInfo) : Op → Prop
  | .AddPlayer p _ => s.Players.find p = none
  | .RemovePlayer p => ∀ temp ∈ s.ShotSequence, temp.player ≠ p
  | .Update => True
  | .RandOver _ => True

instance (s : FightInfo) : (op : Op) → Decidable (Proper s op)
  | .AddPlayer _ _ => inferInstanceAs (Decidable (_ = none))
  | .RemovePlayer p => inferInstanceAs (Decidable (∀ temp ∈ s.ShotSequence, temp.player ≠ p))
  | .Update | .RandOver _ => inferInstanceAs (Decidable True)

section Shooting

variable {lower_value : Int} {temp temp' : PlayerFightInfo} {ps : List FightBase}
  {acc acc' : OrderedMap FightBase PlayerFightInfo × List PlayerFightInfo} {Players Players' : OrderedMap FightBase PlayerFightInfo}

/-- What shooting leaves alone. -/
def place (it : PlayerFightInfo) : FightBase × Nat := (it.player, it.pos)

def SamePlaces (Players Players' : OrderedMap FightBase PlayerFightInfo) : Prop :=
  ∀ p, (Players'.find p).map place = (Players.find p).map place

theorem SamePlaces.mem_keys (same : SamePlaces Players Players') : p ∈ Players'.keys ↔ p ∈ Players.keys := by
  simp only [OrderedMap.mem_keys, ← Option.isSome_iff_exists]
  rw [← Option.isSome_map (f := place), same p, Option.isSome_map]

theorem SamePlaces.keys (same : SamePlaces Players Players') : Players'.keys.Perm Players.keys :=
  (List.perm_ext_iff_of_nodup (OrderedMap.nodup_keys _) (OrderedMap.nodup_keys _)).2 fun _ => same.mem_keys

theorem SamePlaces.keyed (same : SamePlaces Players Players') (keyed : Keyed Players) : Keyed Players' := by
  intro p it found
  have here := same p
  rw [found] at here
  obtain ⟨it', found', places⟩ := Option.map_eq_some_iff.1 here.symm
  exact (congrArg Prod.fst places).symm.trans (keyed p it' found')

theorem SamePlaces.exists_pos (same : SamePlaces Players Players') :
    (∃ it, Players'.find p = some it ∧ it.pos = pos) ↔ ∃ it, Players.find p = some it ∧ it.pos = pos := by
  have read : ∀ found : Option PlayerFightInfo,
      (∃ it, found = some it ∧ it.pos = pos) ↔ ∃ place', found.map place = some place' ∧ place'.2 = pos := by
    intro found
    cases found with
    | none => simp
    | some it => simp [place]
  rw [read, read, same p]

theorem place_shoot (shot : FightInfo.shoot w lower_value temp = some temp') : place temp' = place temp := by
  simp only [FightInfo.shoot, Option.bind_eq_bind, Option.bind_eq_some_iff] at shot
  obtain ⟨_, _, _, _, result⟩ := shot
  cases result
  rfl

theorem shootAt_spec (shot : FightInfo.shootAt w lower_value acc p = some acc') (keyed : Keyed acc.1) :
    SamePlaces acc.1 acc'.1 ∧ acc'.2.map PlayerFightInfo.player = acc.2.map PlayerFightInfo.player ++ [p] := by
  simp only [FightInfo.shootAt, Option.bind_eq_bind, Option.bind_eq_some_iff] at shot
  obtain ⟨temp, found, temp', shot, result⟩ := shot
  cases result
  have same := place_shoot shot
  constructor
  · intro q
    rw [OrderedMap.find_set]
    split
    · next here => rw [here, found, Option.map_some, Option.map_some, same]
    · rfl
  · have player : temp'.player = temp.player := congrArg Prod.fst same
    simp only [List.map_append, List.map_cons, List.map_nil, player, keyed p temp found]

theorem foldlM_shootAt (shot : ps.foldlM (FightInfo.shootAt w lower_value) acc = some acc') (keyed : Keyed acc.1) :
    SamePlaces acc.1 acc'.1 ∧ acc'.2.map PlayerFightInfo.player = acc.2.map PlayerFightInfo.player ++ ps := by
  induction ps generalizing acc with
  | nil =>
    cases shot
    exact ⟨fun _ => rfl, (List.append_nil _).symm⟩
  | cons p ps ih =>
    rw [List.foldlM_cons] at shot
    obtain ⟨mid, first, rest⟩ := Option.bind_eq_some_iff.1 shot
    obtain ⟨same, players⟩ := shootAt_spec first keyed
    obtain ⟨same', players'⟩ := ih rest (same.keyed keyed)
    refine ⟨fun q => (same' q).trans (same q), ?_⟩
    rw [players', players, List.append_assoc, List.singleton_append]

end Shooting

/-- The speeds that the sort compares are weakly ordered. -/
instance strictWeakFaster (w : Fighters) : IsStrictWeakOrder PlayerFightInfo (FightInfo.faster w) where
  irrefl a := lt_irrefl (w.GetYisu a.player)
  trans a b c first second := lt_trans second first
  incomp_trans a b c first second := by
    simp only [FightInfo.faster] at first second ⊢
    omega

/-- What `Update` does: nothing, or a new round of all fighters, the slowest last. -/
inductive Updated (w : Fighters) (s : FightInfo) : FightInfo → List Call → Prop where
  | refused : Updated w s s []
  | round (Players : OrderedMap FightBase PlayerFightInfo) (init : List PlayerFightInfo) (last : PlayerFightInfo)
      (same : SamePlaces s.Players Players) (players : ((init ++ [last]).map PlayerFightInfo.player).Perm s.Players.keys)
      (sorted : (init ++ [last]).Pairwise fun a b => w.GetYisu b.player ≤ w.GetYisu a.player) :
      Updated w s { s with Players := Players, ShotSequence := init ++ [last] } [.Fight last.player]

theorem Update_spec (updated : s.Update w std debug = some (t, calls)) (keyed : Keyed s.Players) : Updated w s t calls := by
  unfold FightInfo.Update at updated
  split at updated
  · cases updated
  split at updated
  · cases updated
    exact .refused
  simp only [Option.bind_eq_bind, Option.bind_eq_some_iff] at updated
  obtain ⟨lower_value, -, updated⟩ := updated
  split at updated
  · cases updated
  simp only [Option.bind_eq_some_iff] at updated
  obtain ⟨⟨Players, shots⟩, shot, last, found, result⟩ := updated
  cases result
  obtain ⟨same, players⟩ := foldlM_shootAt shot keyed
  obtain ⟨init, sequence⟩ := List.getLast?_eq_some_iff.1 found
  have perm := (std.perm (FightInfo.faster w) shots).map PlayerFightInfo.player
  have sorted := (std.sorted (FightInfo.faster w) shots).imp fun not => not_lt.1 not
  rw [sequence] at perm sorted ⊢
  refine .round Players init last same (perm.trans ?_) sorted
  rw [players, List.map_nil, List.nil_append]

/-- What `RandOver` does: nothing, or the next shot of the round. It never comes to `Update`. -/
inductive Turned (s : FightInfo) (p : FightBase) : FightInfo → List Call → Prop where
  | last (short : s.ShotSequence.length ≤ 1) : Turned s p s []
  | other (init : List PlayerFightInfo) (a : PlayerFightInfo) (sequence : s.ShotSequence = init ++ [a]) (ne : a.player ≠ p) :
      Turned s p s []
  | next (init : List PlayerFightInfo) (b a : PlayerFightInfo) (sequence : s.ShotSequence = init ++ [b] ++ [a])
      (same : a.player = p) : Turned s p { s with ShotSequence := init ++ [b] } [.Fight b.player]

theorem RandOver_spec (turned : s.RandOver w std debug p = some (t, calls)) : Turned s p t calls := by
  unfold FightInfo.RandOver at turned
  split at turned
  · next short =>
    cases turned
    exact .last short
  next long =>
  simp only [Option.bind_eq_bind, Option.bind_eq_some_iff] at turned
  obtain ⟨a, found, turned⟩ := turned
  obtain ⟨before, sequence⟩ := List.getLast?_eq_some_iff.1 found
  split at turned
  · next ne =>
    cases turned
    exact .other before a sequence ne
  next same =>
  -- the guard on the size leaves a shot before the last one
  have more : before ≠ [] := by
    rintro rfl
    rw [sequence] at long
    exact long (Nat.le_refl 1)
  obtain ⟨init, b, rfl⟩ := (List.eq_nil_or_concat' before).resolve_left more
  simp only [sequence, List.dropLast_concat, List.getLast?_concat] at turned
  cases turned
  exact .next init b a sequence (not_not.1 same)

/-- The invariant of the runs that keep to `Proper`. -/
structure Sound (w : Fighters) (s : FightInfo) : Prop extends Roster w s where
  keyed : Keyed s.Players

section Operations

variable {op : Op} {map : Finset FightBase} {Maps : List (Finset FightBase)} {Players : OrderedMap FightBase PlayerFightInfo}
  {it : PlayerFightInfo}

theorem Keyed.set (keyed : Keyed Players) (same : it.player = p) : Keyed (Players.set p it) := by
  intro q it' found
  rw [OrderedMap.find_set] at found
  split at found
  · next here =>
    cases found
    rw [same, here]
  · exact keyed q it' found

theorem Keyed.erase (keyed : Keyed Players) : Keyed (Players.erase p) := by
  intro q it' found
  rw [OrderedMap.find_erase] at found
  split at found
  · cases found
  · exact keyed q it' found

/-- No operation puts an entry under another fighter, whatever the state. -/
theorem Keyed.step (keyed : Keyed s.Players) (next : step w std debug s op = some t) : Keyed t.Players := by
  cases op with
  | AddPlayer p pos =>
    simp only [Fights.step, FightInfo.AddPlayer, Option.bind_eq_bind, Option.bind_eq_some_iff] at next
    obtain ⟨_, _, _, _, _, _, result⟩ := next
    cases result
    dsimp only
    split
    · exact keyed.set rfl
    · exact keyed
  | RemovePlayer p =>
    simp only [Fights.step, FightInfo.RemovePlayer] at next
    split at next
    · cases next
      exact keyed
    · obtain ⟨_, _, result⟩ := Option.bind_eq_some_iff.1 next
      cases result
      exact keyed.erase
  | Update =>
    obtain ⟨⟨t, calls⟩, updated, rfl⟩ := Option.map_eq_some_iff.1 next
    cases Update_spec updated keyed with
    | refused => exact keyed
    | round Players init last same => exact same.keyed keyed
  | RandOver p =>
    obtain ⟨⟨t, calls⟩, turned, rfl⟩ := Option.map_eq_some_iff.1 next
    cases RandOver_spec turned with
    | last => exact keyed
    | other => exact keyed
    | next => exact keyed

theorem inMap_set (here : Maps[pos]? = some map) (map' : Finset FightBase) (pos' : Nat) (q : FightBase) :
    InMap (Maps.set pos map') pos' q ↔ if pos' = pos then q ∈ map' else InMap Maps pos' q := by
  have low := (List.getElem?_eq_some_iff.1 here).1
  split
  · next same =>
    subst same
    simp [InMap, List.getElem?_set_self low]
  · next other => simp only [InMap, List.getElem?_set_ne (Ne.symm other)]

theorem inMap_iff (here : Maps[pos]? = some map) (q : FightBase) : InMap Maps pos q ↔ q ∈ map := by
  simp [InMap, here]

theorem sound_new (w : Fighters) (count : Nat) : Sound w (FightInfo.new count) where
  yisus := Counts.empty
  gongsus := Counts.empty
  maps pos p := by
    constructor
    · rintro ⟨map, here, mem⟩
      simp only [FightInfo.new, List.getElem?_replicate] at here
      split at here
      · cases here
        cases mem
      · cases here
    · rintro ⟨it, found, -⟩
      cases found
  shots temp mem := by cases mem
  keyed p it found := by cases found

theorem Sound.AddPlayer (sound : Sound w s) (new : s.Players.find p = none) (added : s.AddPlayer w p pos = some t) :
    Sound w t := by
  simp only [FightInfo.AddPlayer, Option.bind_eq_bind, Option.bind_eq_some_iff, if_pos new] at added
  obtain ⟨yisu, count, gongsu, count', map, here, result⟩ := added
  cases result
  have fresh : p ∉ s.Players.keys := OrderedMap.not_mem_keys.2 new
  have keys : (s.Players.set p ⟨p, 0, 0, pos, 0, 0⟩).keys.Perm (p :: s.Players.keys) := OrderedMap.keys_set_perm fresh
  refine ⟨⟨?_, ?_, ?_, ?_⟩, ?_⟩
  · obtain rfl := eq_of_int32 count
    exact (sound.yisus.increase (w.GetYisu p)).perm (keys.map w.GetYisu).symm
  · obtain rfl := eq_of_int32 count'
    exact (sound.gongsus.increase (w.GetGongsu p)).perm (keys.map w.GetGongsu).symm
  · intro pos' q
    dsimp only
    rw [inMap_set here, OrderedMap.find_set]
    have maps := sound.maps pos' q
    by_cases same : q = p
    · subst same
      rw [new] at maps
      split
      · next at_ => simp [at_]
      · next off => simp [maps, Ne.symm off]
    · rw [if_neg same, ← maps]
      split
      · next at_ =>
        subst at_
        rw [inMap_iff here, Finset.mem_insert, or_iff_right same]
      · rfl
  · intro temp mem
    exact OrderedMap.mem_keys_set.2 (.inr (sound.shots temp mem))
  · exact sound.keyed.set rfl

theorem Sound.RemovePlayer (sound : Sound w s) (unshot : ∀ temp ∈ s.ShotSequence, temp.player ≠ p)
    (removed : s.RemovePlayer w p = some t) : Sound w t := by
  unfold FightInfo.RemovePlayer at removed
  cases found : s.Players.find p with
  | none =>
    rw [found] at removed
    cases removed
    exact sound
  | some it =>
    rw [found] at removed
    simp only [Option.bind_eq_bind, Option.bind_eq_some_iff] at removed
    obtain ⟨map, here, result⟩ := removed
    cases result
    have keys := OrderedMap.keys_erase_perm (OrderedMap.mem_keys.2 ⟨it, found⟩)
    rw [sound.keyed p it found]
    refine ⟨⟨?_, ?_, ?_, ?_⟩, ?_⟩
    · exact (sound.yisus.perm (keys.map w.GetYisu)).decrease
    · exact (sound.gongsus.perm (keys.map w.GetGongsu)).decrease
    · intro pos' q
      dsimp only
      rw [inMap_set here, OrderedMap.find_erase]
      have maps := sound.maps pos' q
      by_cases same : q = p
      · subst same
        rw [found] at maps
        split
        · simp
        · next off => simp [maps, Ne.symm off]
      · rw [if_neg same, ← maps]
        split
        · next at_ =>
          subst at_
          rw [inMap_iff here, Finset.mem_erase, and_iff_right same]
        · rfl
    · intro temp mem
      exact OrderedMap.mem_keys_erase.2 ⟨unshot temp mem, sound.shots temp mem⟩
    · exact sound.keyed.erase

theorem Sound.updated (sound : Sound w s) (updated : Updated w s t calls) : Sound w t := by
  cases updated with
  | refused => exact sound
  | round Players init last same players sorted =>
    refine ⟨⟨?_, ?_, ?_, ?_⟩, same.keyed sound.keyed⟩
    · exact sound.yisus.perm (same.keys.map w.GetYisu).symm
    · exact sound.gongsus.perm (same.keys.map w.GetGongsu).symm
    · intro pos q
      exact (sound.maps pos q).trans same.exists_pos.symm
    · intro temp mem
      exact same.mem_keys.2 (players.mem_iff.1 (List.mem_map_of_mem mem))

theorem Sound.turned (sound : Sound w s) (turned : Turned s p t calls) : Sound w t := by
  cases turned with
  | last => exact sound
  | other => exact sound
  | next init b a sequence same =>
    refine ⟨⟨sound.yisus, sound.gongsus, sound.maps, ?_⟩, sound.keyed⟩
    intro temp mem
    apply sound.shots temp
    rw [sequence]
    exact List.mem_append_left _ mem

end Operations

section Runs

variable {op : Op} {ops : List Op} {count : Nat}

theorem step_sound (sound : Sound w s) (proper : Proper s op) (next : step w std debug s op = some t) : Sound w t := by
  cases op with
  | AddPlayer p pos => exact sound.AddPlayer proper next
  | RemovePlayer p => exact sound.RemovePlayer proper next
  | Update =>
    obtain ⟨⟨t, calls⟩, updated, rfl⟩ := Option.map_eq_some_iff.1 next
    exact sound.updated (Update_spec updated sound.keyed)
  | RandOver p =>
    obtain ⟨⟨t, calls⟩, turned, rfl⟩ := Option.map_eq_some_iff.1 next
    exact sound.turned (RandOver_spec turned)

/-- A fighter that is added again is counted again. -/
theorem AddPlayer_breaks (roster : Roster w s) (present : s.Players.find p ≠ none) (added : s.AddPlayer w p pos = some t) :
    ¬ Roster w t := by
  simp only [FightInfo.AddPlayer, Option.bind_eq_bind, Option.bind_eq_some_iff, if_neg present] at added
  obtain ⟨yisu, count, gongsu, count', map, here, result⟩ := added
  cases result
  obtain rfl := eq_of_int32 count
  intro roster'
  have twice := (roster.yisus.increase (w.GetYisu p)).unique roster'.yisus
  have longer := twice.length_eq
  simp at longer

/-- The shot of a fighter that is removed stays. -/
theorem RemovePlayer_breaks (roster : Roster w s) {temp : PlayerFightInfo} (mem : temp ∈ s.ShotSequence)
    (removed : s.RemovePlayer w temp.player = some t) : ¬ Roster w t := by
  obtain ⟨it, found⟩ := OrderedMap.mem_keys.1 (roster.shots temp mem)
  simp only [FightInfo.RemovePlayer, found, Option.bind_eq_bind, Option.bind_eq_some_iff] at removed
  obtain ⟨map, here, result⟩ := removed
  cases result
  intro roster'
  have present := roster'.shots temp mem
  exact (OrderedMap.mem_keys_erase.1 present).1 rfl

theorem step_breaks (sound : Sound w s) (improper : ¬ Proper s op) (next : step w std debug s op = some t) : ¬ Roster w t := by
  cases op with
  | AddPlayer p pos => exact AddPlayer_breaks sound.toRoster improper next
  | RemovePlayer p =>
    obtain ⟨temp, shot⟩ := not_forall.1 improper
    obtain ⟨mem, same⟩ := Classical.not_imp.1 shot
    obtain rfl := not_not.1 same
    exact RemovePlayer_breaks sound.toRoster mem next
  | Update => exact absurd trivial improper
  | RandOver p => exact absurd trivial improper

/-- **The containers agree all along a run** if and only if all its steps are proper. -/
theorem roster_iff (run : Runs (step w std debug) (fun _ _ => True) (FightInfo.new count) ops t) :
    (∀ ops' s, ops' <+: ops → Runs (step w std debug) (fun _ _ => True) (FightInfo.new count) ops' s → Roster w s) ↔
      Runs (step w std debug) Proper (FightInfo.new count) ops t :=
  run.always_iff (Sound w) (sound_new w count) (fun _ sound => sound.toRoster)
    (fun _ _ _ sound proper next => step_sound sound proper next)
    fun _ _ _ sound improper next => step_breaks sound improper next

/-- Three fighters, two of them equally fast. -/
def three : Fighters where
  GetYisu p := if p = 1 then 1 else 2
  GetGongsu p := p

/-- The three come in. -/
def joined : List Op := [.AddPlayer 1 0, .AddPlayer 2 0, .AddPlayer 3 1]

theorem roster_iff_three : ∃ t, Runs (step three .insertion true) Proper (FightInfo.new 2) joined t ∧ t.Players.keys = [1, 2, 3] ∧
    ∀ ops s, ops <+: joined → Runs (step three .insertion true) (fun _ _ => True) (FightInfo.new 2) ops s → Roster three s := by
  have ran : ∃ t, Runs (step three .insertion true) Proper (FightInfo.new 2) joined t ∧ t.Players.keys = [1, 2, 3] := by
    apply Runs.exists_of_decide
    decide +kernel
  obtain ⟨t, proper, keys⟩ := ran
  exact ⟨t, proper, keys, (roster_iff (proper.mono fun _ _ _ => trivial)).2 proper⟩

/-- A fighter that joins twice is counted twice, and one that leaves in the middle of a round still has its shot. -/
theorem roster_breaks :
    (∃ t, Runs (step three .insertion true) (fun _ _ => True) (FightInfo.new 2) [.AddPlayer 1 0, .AddPlayer 1 0] t ∧
      ¬ Roster three t) ∧
    ∃ t, Runs (step three .insertion true) (fun _ _ => True) (FightInfo.new 2) (joined ++ [.Update, .RemovePlayer 2]) t ∧
      ¬ Roster three t := by
  constructor
  · have ran : ∃ t, Runs (step three .insertion true) (fun _ _ => True) (FightInfo.new 2) [.AddPlayer 1 0, .AddPlayer 1 0] t ∧
        t.Players.keys = [1] ∧ t.Yisus.find 1 = some 2 := by
      apply Runs.exists_of_decide
      decide +kernel
    obtain ⟨t, run, once, twice⟩ := ran
    refine ⟨t, run, fun roster => ?_⟩
    have counts := roster.yisus 1
    rw [once, twice] at counts
    exact absurd counts (by decide)
  · have ran : ∃ t, Runs (step three .insertion true) (fun _ _ => True) (FightInfo.new 2) (joined ++ [.Update, .RemovePlayer 2]) t ∧
        2 ∉ t.Players.keys ∧ ∃ temp ∈ t.ShotSequence, temp.player = 2 := by
      apply Runs.exists_of_decide
      decide +kernel
    obtain ⟨t, run, gone, temp, mem, player⟩ := ran
    refine ⟨t, run, fun roster => gone ?_⟩
    have shot := roster.shots temp mem
    rwa [player] at shot

end Runs

end GameServer.Fights

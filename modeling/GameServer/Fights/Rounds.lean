import GameServer.Fights.Roster
import GameServer.Lib.Carry

/-!
# The rounds of a fight

When a round starts, and what the rounds make of a speed. The assertion of `Update` wants the two histograms to have
different sizes, and the two iterators want two elements in each: of the fights built by `AddPlayer` those start a round
that meet both (`Update_starts_iff`). What a speed leaves over is kept in ten thousandths of `lower_value`, and nothing gets
lost on the way exactly if the speed is a whole number of them (`rounds_iff`).
-/

namespace GameServer.Fights

open GameServer.Lib

variable {w : Fighters} {std : StdSort} {debug : Bool} {s t : FightInfo} {p q : FightBase} {lower_value : Int}

section Shots

variable {n speed left : Int}

theorem int32_nonneg (low : 0 ≤ n) : int32 n = if n < 2 ^ 31 then some n else none := by
  have above : -2 ^ 31 ≤ n := by omega
  simp only [int32, above, true_and]

/-- The sums and products of `shots` that can leave the range of an `int32`. -/
structure Fits (speed left lower_value : Int) : Prop where
  product : left * lower_value < 2 ^ 31
  temp : speed + Carry.back 10000 lower_value left < 2 ^ 31
  rest : (speed + Carry.back 10000 lower_value left) % lower_value * 10000 < 2 ^ 31

/-- `shots` is one round of the carried remainder, if it fits. -/
theorem shots_iff (pos : 0 < lower_value) (speed' : 0 ≤ speed) (low : 0 ≤ left) (result : Int × Int) :
    FightInfo.shots speed left lower_value = some result ↔
      Fits speed left lower_value ∧ result = Carry.carry 10000 lower_value speed left := by
  have product : 0 ≤ left * lower_value := mul_nonneg low pos.le
  have back : 0 ≤ Carry.back 10000 lower_value left := Int.ediv_nonneg product (by decide)
  have temp : 0 ≤ speed + Carry.back 10000 lower_value left := add_nonneg speed' back
  have rest : 0 ≤ (speed + Carry.back 10000 lower_value left) % lower_value * 10000 :=
    mul_nonneg (Int.emod_nonneg _ (ne_of_gt pos)) (by decide)
  have value' := Int.ediv_le_self lower_value temp
  have left' := Int.ediv_le_self lower_value rest
  have same : (left * lower_value).tdiv 10000 = Carry.back 10000 lower_value left := Int.tdiv_eq_ediv_of_nonneg product
  simp only [FightInfo.shots, Option.bind_eq_bind, int32_nonneg product]
  split
  case isFalse large => simpa using fun fits : Fits speed left lower_value => absurd fits.product large
  next first =>
  simp only [Option.bind_some, same, int32_nonneg temp]
  split
  case isFalse large => simpa using fun fits : Fits speed left lower_value => absurd fits.temp large
  next second =>
  simp only [Option.bind_some, Int.tdiv_eq_ediv_of_nonneg temp, Int.tmod_eq_emod_of_nonneg temp,
    int32_nonneg (Int.ediv_nonneg temp pos.le), if_pos (value'.trans_lt second), int32_nonneg rest]
  split
  case isFalse large => simpa using fun fits : Fits speed left lower_value => absurd fits.rest large
  next third =>
  simp only [Option.bind_some, Int.tdiv_eq_ediv_of_nonneg rest, int32_nonneg (Int.ediv_nonneg rest pos.le),
    if_pos (left'.trans_lt third), Option.some.injEq]
  constructor
  · rintro rfl
    exact ⟨⟨first, second, third⟩, rfl⟩
  · rintro ⟨-, rfl⟩
    rfl

/-- An entry after a round. -/
def shot (w : Fighters) (lower_value : Int) (temp : PlayerFightInfo) : PlayerFightInfo :=
  let yisu := Carry.carry 10000 lower_value (w.GetYisu temp.player) temp.left_yisu
  let gongsu := Carry.carry 10000 lower_value (w.GetGongsu temp.player) temp.left_gongsu
  { temp with yisu_value := yisu.1, left_yisu := yisu.2, gongsu_value := gongsu.1, left_gongsu := gongsu.2 }

theorem shoot_iff {temp temp' : PlayerFightInfo} (pos : 0 < lower_value)
    (yisu : 0 ≤ w.GetYisu temp.player ∧ 0 ≤ temp.left_yisu) (gongsu : 0 ≤ w.GetGongsu temp.player ∧ 0 ≤ temp.left_gongsu) :
    FightInfo.shoot w lower_value temp = some temp' ↔
      Fits (w.GetYisu temp.player) temp.left_yisu lower_value ∧ Fits (w.GetGongsu temp.player) temp.left_gongsu lower_value ∧
        temp' = shot w lower_value temp := by
  simp only [FightInfo.shoot, Option.bind_eq_bind, Option.bind_eq_some_iff, shots_iff pos yisu.1 yisu.2,
    shots_iff pos gongsu.1 gongsu.2]
  constructor
  · rintro ⟨_, ⟨fits, rfl⟩, _, ⟨fits', rfl⟩, result⟩
    cases result
    exact ⟨fits, fits', rfl⟩
  · rintro ⟨fits, fits', rfl⟩
    exact ⟨_, ⟨fits, rfl⟩, _, ⟨fits', rfl⟩, rfl⟩

end Shots

section Loop

variable {ps : List FightBase} {acc acc' : OrderedMap FightBase PlayerFightInfo × List PlayerFightInfo}

theorem shootAt_eq (p : FightBase) : FightInfo.shootAt w lower_value acc p =
    ((acc.1.find p).bind (FightInfo.shoot w lower_value)).map fun temp => (acc.1.set p temp, acc.2 ++ [temp]) := by
  unfold FightInfo.shootAt
  cases acc.1.find p with
  | none => rfl
  | some temp => cases shot : FightInfo.shoot w lower_value temp <;> simp [shot]

/-- The loop comes to its end if every fighter's speeds fit, and then each has got its shots. -/
theorem foldlM_shootAt_iff (nodup : ps.Nodup) :
    (∃ acc', ps.foldlM (FightInfo.shootAt w lower_value) acc = some acc') ↔
      ∀ p ∈ ps, ∃ temp, (acc.1.find p).bind (FightInfo.shoot w lower_value) = some temp := by
  induction ps generalizing acc with
  | nil => simp
  | cons p ps ih =>
    obtain ⟨fresh, nodup'⟩ := List.nodup_cons.1 nodup
    rw [List.foldlM_cons, shootAt_eq, List.forall_mem_cons]
    cases shot : (acc.1.find p).bind (FightInfo.shoot w lower_value) with
    | none => simp
    | some temp =>
      simp only [Option.map_some, Option.bind_eq_bind, Option.bind_some, ih nodup', Option.some.injEq, exists_eq', true_and]
      refine forall₂_congr fun q mem => ?_
      rw [OrderedMap.find_set, if_neg (ne_of_mem_of_not_mem mem fresh)]

theorem foldlM_shootAt_find (shot : ps.foldlM (FightInfo.shootAt w lower_value) acc = some acc') (nodup : ps.Nodup) :
    ∀ q, acc'.1.find q = if q ∈ ps then (acc.1.find q).bind (FightInfo.shoot w lower_value) else acc.1.find q := by
  induction ps generalizing acc with
  | nil =>
    cases shot
    simp
  | cons p ps ih =>
    obtain ⟨fresh, nodup'⟩ := List.nodup_cons.1 nodup
    rw [List.foldlM_cons, shootAt_eq] at shot
    obtain ⟨mid, first, rest⟩ := Option.bind_eq_some_iff.1 shot
    obtain ⟨temp, shot, result⟩ := Option.map_eq_some_iff.1 first
    cases result
    intro q
    rw [ih rest nodup', OrderedMap.find_set]
    by_cases same : q = p
    · subst same
      simp [fresh, shot]
    · simp [same]

/-- What a round needs: the assertion, the two iterators, the division, and the arithmetic of all fighters. -/
structure Startable (w : Fighters) (debug : Bool) (s : FightInfo) (lower_value : Int) : Prop where
  differ : debug = true → s.Yisus.size ≠ s.Gongsus.size
  lower : s.lower_value = some lower_value
  divides : lower_value ≠ 0
  shoots : ∀ p ∈ s.Players.keys, ∃ temp, (s.Players.find p).bind (FightInfo.shoot w lower_value) = some temp

/-- What it does to the fighters. -/
structure Round (w : Fighters) (lower_value : Int) (s t : FightInfo) : Prop where
  yisus : t.Yisus = s.Yisus
  gongsus : t.Gongsus = s.Gongsus
  find : ∀ p, t.Players.find p = (s.Players.find p).bind (FightInfo.shoot w lower_value)

theorem one_lt_size_of_lower (lower : s.lower_value = some lower_value) : 1 < s.Yisus.size := by
  simp only [FightInfo.lower_value, Option.bind_eq_bind, Option.bind_eq_some_iff] at lower
  obtain ⟨yisu, second, -⟩ := lower
  have long := (List.getElem?_eq_some_iff.1 second).1
  rwa [OrderedMap.keys, List.length_map] at long

theorem Update_starts (updated : s.Update w std debug = some (t, [.Fight p])) :
    ∃ lower_value, Startable w debug s lower_value ∧ Round w lower_value s t := by
  unfold FightInfo.Update at updated
  split at updated
  · cases updated
  next differ =>
  split at updated
  · cases updated
  simp only [Option.bind_eq_bind, Option.bind_eq_some_iff] at updated
  obtain ⟨lower_value, lower, updated⟩ := updated
  split at updated
  · cases updated
  next divides =>
  simp only [Option.bind_eq_some_iff] at updated
  obtain ⟨⟨Players, shots⟩, shot, last, found, result⟩ := updated
  cases result
  have nodup := OrderedMap.nodup_keys s.Players
  refine ⟨lower_value, ⟨fun asserted same => differ ⟨asserted, same⟩, lower, divides, ?_⟩, rfl, rfl, fun q => ?_⟩
  · exact (foldlM_shootAt_iff nodup).1 ⟨_, shot⟩
  · refine (foldlM_shootAt_find shot nodup q).trans ?_
    split
    · rfl
    · next absent => rw [OrderedMap.not_mem_keys.1 absent, Option.bind_none]

theorem Startable.Update (startable : Startable w debug s lower_value) (some_player : s.Players.keys ≠ [])
    (keyed : Keyed s.Players) (std : StdSort) : ∃ t p, s.Update w std debug = some (t, [.Fight p]) := by
  have ends : ∃ acc, s.Players.keys.foldlM (FightInfo.shootAt w lower_value) (s.Players, []) = some acc :=
    (foldlM_shootAt_iff (OrderedMap.nodup_keys s.Players)).2 startable.shoots
  obtain ⟨⟨Players, shots⟩, shot⟩ := ends
  have shots' : shots.map PlayerFightInfo.player = s.Players.keys := (foldlM_shootAt shot keyed).2
  -- a fighter has a shot, and so there is a last one
  have sorted : std.sort (FightInfo.faster w) shots ≠ [] := by
    intro none_left
    have perm := std.perm (FightInfo.faster w) shots
    rw [none_left, List.nil_perm] at perm
    rw [perm] at shots'
    exact some_player shots'.symm
  have more := one_lt_size_of_lower startable.lower
  have differ : ¬ (debug ∧ s.Yisus.size = s.Gongsus.size) := fun ⟨asserted, same⟩ => startable.differ asserted same
  refine ⟨{ s with Players, ShotSequence := std.sort (FightInfo.faster w) shots },
    ((std.sort (FightInfo.faster w) shots).getLast sorted).player, ?_⟩
  simp only [FightInfo.Update, if_neg differ, if_neg (not_le.2 more), startable.lower, Option.bind_eq_bind, Option.bind_some,
    if_neg startable.divides, shot, List.getLast?_eq_some_getLast sorted]

/-- The round is begun by one of the fighters. -/
theorem Fight_mem (updated : s.Update w std debug = some (t, [.Fight p])) (keyed : Keyed s.Players) : p ∈ t.Players.keys := by
  have spec := Update_spec updated keyed
  generalize same : [Call.Fight p] = calls at spec
  cases spec with
  | refused => cases same
  | round Players init last places players sorted =>
    cases same
    rw [places.mem_keys]
    exact players.mem_iff.1 (List.mem_map_of_mem (List.mem_append_right _ (List.mem_singleton_self _)))

end Loop

section Starting

variable {ops : List Op} {count : Nat} {yisu gongsu : Int}

/-- A call that adds a fighter. -/
def Adding : FightInfo → Op → Prop
  | _, .AddPlayer _ _ => True
  | _, .RemovePlayer _ => False
  | _, .Update => False
  | _, .RandOver _ => False

instance decidableAdding : ∀ s op, Decidable (Adding s op)
  | _, .AddPlayer _ _ => .isTrue trivial
  | _, .RemovePlayer _ => .isFalse id
  | _, .Update => .isFalse id
  | _, .RandOver _ => .isFalse id

/-- A fight that no round has been started in: nothing is left over, and the histograms count speeds of its fighters. -/
structure Fresh (w : Fighters) (s : FightInfo) : Prop where
  keyed : Keyed s.Players
  left : ∀ p it, s.Players.find p = some it → it.left_yisu = 0 ∧ it.left_gongsu = 0
  yisus : ∀ v ∈ s.Yisus.keys, ∃ p ∈ s.Players.keys, w.GetYisu p = v
  gongsus : ∀ v ∈ s.Gongsus.keys, ∃ p ∈ s.Players.keys, w.GetGongsu p = v

theorem fresh_new (w : Fighters) (count : Nat) : Fresh w (FightInfo.new count) where
  keyed p it found := by cases found
  left p it found := by cases found
  yisus v mem := by cases mem
  gongsus v mem := by cases mem

theorem Fresh.AddPlayer {pos : Nat} (fresh : Fresh w s) (added : s.AddPlayer w p pos = some t) : Fresh w t := by
  have next : step w .insertion true s (.AddPlayer p pos) = some t := added
  have keyed := fresh.keyed.step next
  simp only [FightInfo.AddPlayer, Option.bind_eq_bind, Option.bind_eq_some_iff] at added
  obtain ⟨count, -, count', -, map, -, result⟩ := added
  cases result
  -- the fighters are those of before and `p`
  have keys : ∀ q, q ∈ (if s.Players.find p = none then s.Players.set p ⟨p, 0, 0, pos, 0, 0⟩ else s.Players).keys ↔
      q = p ∨ q ∈ s.Players.keys := by
    intro q
    split
    · exact OrderedMap.mem_keys_set
    · next present =>
      rw [← OrderedMap.not_mem_keys, not_not] at present
      exact ⟨.inr, fun either => either.elim (fun same => same ▸ present) id⟩
  -- and so are the speeds
  have increased : ∀ (speed : FightBase → Int) (m : OrderedMap Int Int), (∀ v ∈ m.keys, ∃ q ∈ s.Players.keys, speed q = v) →
      ∀ n, ∀ v ∈ (m.set (speed p) n).keys, ∃ q ∈ (if s.Players.find p = none then s.Players.set p ⟨p, 0, 0, pos, 0, 0⟩
        else s.Players).keys, speed q = v := by
    intro speed m speeds n v mem
    simp only [keys]
    rcases OrderedMap.mem_keys_set.1 mem with rfl | mem
    · exact ⟨p, .inl rfl, rfl⟩
    · obtain ⟨q, here, same⟩ := speeds v mem
      exact ⟨q, .inr here, same⟩
  refine ⟨keyed, ?_, ?_, ?_⟩
  · intro q it found
    dsimp only at found
    split at found
    · rw [OrderedMap.find_set] at found
      split at found
      · cases found
        exact ⟨rfl, rfl⟩
      · exact fresh.left q it found
    · exact fresh.left q it found
  · exact increased w.GetYisu s.Yisus fresh.yisus _
  · exact increased w.GetGongsu s.Gongsus fresh.gongsus _

theorem fresh_of_run (run : Runs (step w std debug) Adding (FightInfo.new count) ops s) : Fresh w s := by
  refine run.invariant (Fresh w) (fresh_new w count) fun s op t fresh adding next => ?_
  cases op with
  | AddPlayer p pos => exact fresh.AddPlayer next
  | RemovePlayer p => cases adding
  | Update => cases adding
  | RandOver p => cases adding

/-- A speed of a fighter. -/
def IsSpeed (v : Int) : Prop := 0 < v ∧ v < 2 ^ 31

/-- The histograms differ in size, have two elements each, and what the speeds leave over of the smaller one of the second
speeds can be scaled. -/
structure Uneven (w : Fighters) (s : FightInfo) (yisu gongsu : Int) : Prop where
  differ : s.Yisus.size ≠ s.Gongsus.size
  second_yisu : s.Yisus.keys[1]? = some yisu
  second_gongsu : s.Gongsus.keys[1]? = some gongsu
  rest : ∀ p ∈ s.Players.keys,
    w.GetYisu p % min yisu gongsu * 10000 < 2 ^ 31 ∧ w.GetGongsu p % min yisu gongsu * 10000 < 2 ^ 31

theorem lower_value_iff : s.lower_value = some lower_value ↔
    ∃ yisu gongsu, s.Yisus.keys[1]? = some yisu ∧ s.Gongsus.keys[1]? = some gongsu ∧ lower_value = min yisu gongsu := by
  simp only [FightInfo.lower_value, Option.bind_eq_bind, Option.bind_eq_some_iff, Option.some.injEq]
  have smaller : ∀ yisu gongsu : Int, (if gongsu < yisu then gongsu else yisu) = min yisu gongsu := by
    intro yisu gongsu
    split
    · next less => exact (min_eq_right less.le).symm
    · next more => exact (min_eq_left (not_lt.1 more)).symm
  simp only [smaller]
  constructor
  · rintro ⟨yisu, second, gongsu, second', same⟩
    exact ⟨yisu, gongsu, second, second', same.symm⟩
  · rintro ⟨yisu, gongsu, second, second', same⟩
    exact ⟨yisu, second, gongsu, second', same.symm⟩

theorem fits_unshot {speed : Int} (speed' : IsSpeed speed) (lower_value : Int) :
    Fits speed 0 lower_value ↔ speed % lower_value * 10000 < 2 ^ 31 := by
  have nothing : Carry.back 10000 lower_value 0 = 0 := by simp [Carry.back]
  constructor
  · intro fits
    simpa [nothing] using fits.rest
  · intro rest
    refine ⟨by simp, ?_, ?_⟩
    · rw [nothing, add_zero]
      exact speed'.2
    · rwa [nothing, add_zero]

theorem Fresh.shoot_iff (fresh : Fresh w s) (pos : 0 < lower_value) (yisu : IsSpeed (w.GetYisu p))
    (gongsu : IsSpeed (w.GetGongsu p)) (mem : p ∈ s.Players.keys) :
    (∃ temp, (s.Players.find p).bind (FightInfo.shoot w lower_value) = some temp) ↔
      w.GetYisu p % lower_value * 10000 < 2 ^ 31 ∧ w.GetGongsu p % lower_value * 10000 < 2 ^ 31 := by
  obtain ⟨it, found⟩ := OrderedMap.mem_keys.1 mem
  obtain rfl := fresh.keyed p it found
  obtain ⟨left_yisu, left_gongsu⟩ := fresh.left _ it found
  rw [← fits_unshot yisu, ← fits_unshot gongsu]
  simp only [found, Option.bind_some,
    Fights.shoot_iff pos ⟨yisu.1.le, left_yisu.ge⟩ ⟨gongsu.1.le, left_gongsu.ge⟩, left_yisu, left_gongsu]
  constructor
  · rintro ⟨_, fits, fits', -⟩
    exact ⟨fits, fits'⟩
  · rintro ⟨fits, fits'⟩
    exact ⟨_, fits, fits', rfl⟩

/-- **A round starts** in a fight built by `AddPlayer` if and only if its histograms are uneven. -/
theorem Update_starts_iff (run : Runs (step w std true) Adding (FightInfo.new count) ops s)
    (speeds : ∀ p ∈ s.Players.keys, IsSpeed (w.GetYisu p) ∧ IsSpeed (w.GetGongsu p)) :
    (∃ t p, s.Update w std true = some (t, [.Fight p]) ∧ p ∈ t.Players.keys) ↔ ∃ yisu gongsu, Uneven w s yisu gongsu := by
  have fresh := fresh_of_run run
  -- the second speeds are speeds of fighters
  have pos : ∀ yisu gongsu, s.Yisus.keys[1]? = some yisu → s.Gongsus.keys[1]? = some gongsu → 0 < min yisu gongsu := by
    intro yisu gongsu second second'
    obtain ⟨p, mem, rfl⟩ := fresh.yisus yisu (List.mem_of_getElem? second)
    obtain ⟨q, mem', rfl⟩ := fresh.gongsus gongsu (List.mem_of_getElem? second')
    exact lt_min (speeds p mem).1.1 (speeds q mem').2.1
  constructor
  · rintro ⟨t, p, updated, -⟩
    obtain ⟨lower_value, startable, -⟩ := Update_starts updated
    obtain ⟨yisu, gongsu, second, second', rfl⟩ := lower_value_iff.1 startable.lower
    refine ⟨yisu, gongsu, startable.differ rfl, second, second', fun p mem => ?_⟩
    exact (fresh.shoot_iff (pos yisu gongsu second second') (speeds p mem).1 (speeds p mem).2 mem).1 (startable.shoots p mem)
  · rintro ⟨yisu, gongsu, uneven⟩
    have pos := pos yisu gongsu uneven.second_yisu uneven.second_gongsu
    have startable : Startable w true s (min yisu gongsu) := by
      refine ⟨fun _ => uneven.differ, ?_, ne_of_gt pos, fun p mem => ?_⟩
      · exact lower_value_iff.2 ⟨yisu, gongsu, uneven.second_yisu, uneven.second_gongsu, rfl⟩
      · exact (fresh.shoot_iff pos (speeds p mem).1 (speeds p mem).2 mem).2 (uneven.rest p mem)
    obtain ⟨first, mem, -⟩ := fresh.yisus yisu (List.mem_of_getElem? uneven.second_yisu)
    obtain ⟨t, p, updated⟩ := startable.Update (List.ne_nil_of_mem mem) fresh.keyed std
    exact ⟨t, p, updated, Fight_mem updated fresh.keyed⟩

theorem Update_starts_iff_three : ∃ s, Runs (step three .insertion true) Adding (FightInfo.new 2) joined s ∧
    ∃ t p, s.Update three .insertion true = some (t, [.Fight p]) ∧ p ∈ t.Players.keys := by
  have ran : ∃ s, Runs (step three .insertion true) Adding (FightInfo.new 2) joined s ∧
      s.Yisus.size ≠ s.Gongsus.size ∧ s.Yisus.keys = [1, 2] ∧ s.Gongsus.keys = [1, 2, 3] ∧ s.Players.keys = [1, 2, 3] := by
    apply Runs.exists_of_decide
    decide +kernel
  obtain ⟨s, run, differ, yisus, gongsus, players⟩ := ran
  refine ⟨s, run, (Update_starts_iff run ?_).2 ⟨2, 2, differ, ?_, ?_, ?_⟩⟩
  · simp [players, IsSpeed, three]
  · rw [yisus]
    rfl
  · rw [gongsus]
    rfl
  · simp [players, three]

/-- Two fighters that differ in both speeds. -/
def two : Fighters where
  GetYisu p := p
  GetGongsu p := p

/-- Two fighters that differ in one of them. -/
def level : Fighters where
  GetYisu p := p
  GetGongsu _ := 1

/-- The two come in. -/
def pair : List Op := [.AddPlayer 1 0, .AddPlayer 2 0]

/-- Two fighters that differ in both speeds fail the assertion, and two that differ in one leave the other histogram without
a second element. -/
theorem Update_does_not_start :
    (∃ s, Runs (step two .insertion true) Adding (FightInfo.new 1) pair s ∧ s.Players.keys = [1, 2] ∧
      (∀ p ∈ s.Players.keys, IsSpeed (two.GetYisu p) ∧ IsSpeed (two.GetGongsu p)) ∧ (s.Update two .insertion true).isNone) ∧
    ∃ s, Runs (step level .insertion true) Adding (FightInfo.new 1) pair s ∧ s.Players.keys = [1, 2] ∧
      (∀ p ∈ s.Players.keys, IsSpeed (level.GetYisu p) ∧ IsSpeed (level.GetGongsu p)) ∧
      (s.Update level .insertion false).isNone := by
  constructor
  · have ran : ∃ s, Runs (step two .insertion true) Adding (FightInfo.new 1) pair s ∧ s.Players.keys = [1, 2] ∧
        (s.Update two .insertion true).isNone := by
      apply Runs.exists_of_decide
      decide +kernel
    obtain ⟨s, run, players, stuck⟩ := ran
    refine ⟨s, run, players, ?_, stuck⟩
    simp [players, IsSpeed, two]
  · have ran : ∃ s, Runs (step level .insertion true) Adding (FightInfo.new 1) pair s ∧ s.Players.keys = [1, 2] ∧
        (s.Update level .insertion false).isNone := by
      apply Runs.exists_of_decide
      decide +kernel
    obtain ⟨s, run, players, stuck⟩ := ran
    refine ⟨s, run, players, ?_, stuck⟩
    simp [players, IsSpeed, level]

end Starting

section LeftOver

variable {speed left : Int} {it : PlayerFightInfo}

/-- A speed so small that no sum or product overflows. -/
structure Small (speed lower_value : Int) : Prop where
  pos : 0 < speed
  sum : speed + lower_value ≤ 2 ^ 31
  product : (lower_value - 1) * 10000 < 2 ^ 31

theorem Small.fits (small : Small speed lower_value) (pos : 0 < lower_value) (below : left < 10000) :
    Fits speed left lower_value := by
  have back : Carry.back 10000 lower_value left < lower_value := by
    apply Int.ediv_lt_of_lt_mul (by decide)
    rw [mul_comm lower_value]
    exact mul_lt_mul_of_pos_right below pos
  have rest := Int.emod_lt_of_pos (speed + Carry.back 10000 lower_value left) pos
  have product := small.product
  have sum := small.sum
  refine ⟨?_, by omega, by omega⟩
  have most : left * lower_value ≤ 9999 * lower_value := mul_le_mul_of_nonneg_right (by omega) pos.le
  omega

/-- A state in which one round after the other can be played. -/
structure Ready (w : Fighters) (debug : Bool) (s : FightInfo) (lower_value : Int) : Prop where
  differ : debug = true → s.Yisus.size ≠ s.Gongsus.size
  lower : s.lower_value = some lower_value
  pos : 0 < lower_value
  keyed : Keyed s.Players
  small : ∀ p ∈ s.Players.keys, Small (w.GetYisu p) lower_value ∧ Small (w.GetGongsu p) lower_value
  left : ∀ p it, s.Players.find p = some it →
    (0 ≤ it.left_yisu ∧ it.left_yisu < 10000) ∧ 0 ≤ it.left_gongsu ∧ it.left_gongsu < 10000

/-- So many consecutive rounds, and the sum of what a fighter's speed is good for in them. -/
def rounds (w : Fighters) (std : StdSort) (debug : Bool) (p : FightBase) (s : FightInfo) : Nat → Option (FightInfo × Int)
  | 0 => some (s, 0)
  | n + 1 => do
    let (s, total) ← rounds w std debug p s n
    let (s, _) ← s.Update w std debug
    let it ← s.Players.find p
    some (s, total + it.yisu_value)

/-- **One round** of a state that is ready leaves it ready, and gives every fighter its shots. -/
theorem Ready.Update (ready : Ready w debug s lower_value) (found : s.Players.find p = some it) (std : StdSort) :
    ∃ t calls, s.Update w std debug = some (t, calls) ∧ Ready w debug t lower_value ∧ ∃ it', t.Players.find p = some it' ∧
      (it'.yisu_value, it'.left_yisu) = Carry.carry 10000 lower_value (w.GetYisu p) it.left_yisu := by
  have pos := ready.pos
  have shoots : ∀ q it, s.Players.find q = some it → FightInfo.shoot w lower_value it = some (shot w lower_value it) := by
    intro q it found
    obtain rfl := ready.keyed q it found
    obtain ⟨yisu, gongsu⟩ := ready.small _ (OrderedMap.mem_keys.2 ⟨it, found⟩)
    obtain ⟨left_yisu, left_gongsu⟩ := ready.left _ it found
    apply (shoot_iff pos ⟨yisu.pos.le, left_yisu.1⟩ ⟨gongsu.pos.le, left_gongsu.1⟩).2
    exact ⟨yisu.fits pos left_yisu.2, gongsu.fits pos left_gongsu.2, rfl⟩
  have startable : Startable w debug s lower_value := by
    refine ⟨ready.differ, ready.lower, ne_of_gt pos, fun q mem => ?_⟩
    obtain ⟨it, found⟩ := OrderedMap.mem_keys.1 mem
    exact ⟨_, by rw [found, Option.bind_some, shoots q it found]⟩
  obtain ⟨t, f, updated⟩ := startable.Update (List.ne_nil_of_mem (OrderedMap.mem_keys.2 ⟨it, found⟩)) ready.keyed std
  obtain ⟨lower_value', startable', round⟩ := Update_starts updated
  obtain rfl := Option.some.inj (startable'.lower.symm.trans ready.lower)
  have find : ∀ q, t.Players.find q = (s.Players.find q).map (shot w lower_value') := by
    intro q
    rw [round.find]
    cases found : s.Players.find q with
    | none => rfl
    | some it => rw [Option.bind_some, shoots q it found, Option.map_some]
  have player : ∀ q it', t.Players.find q = some it' → ∃ it, s.Players.find q = some it ∧ shot w lower_value' it = it' := by
    intro q it' found
    rw [find q] at found
    exact Option.map_eq_some_iff.1 found
  refine ⟨t, _, updated, ⟨?_, ?_, pos, ?_, ?_, ?_⟩, shot w lower_value' it, ?_, ?_⟩
  · rw [round.yisus, round.gongsus]
    exact ready.differ
  · rw [FightInfo.lower_value, round.yisus, round.gongsus]
    exact ready.lower
  · intro q it' found'
    obtain ⟨it, found, rfl⟩ := player q it' found'
    exact ready.keyed q it found
  · intro q mem
    obtain ⟨it', found'⟩ := OrderedMap.mem_keys.1 mem
    obtain ⟨it, found, -⟩ := player q it' found'
    exact ready.small q (OrderedMap.mem_keys.2 ⟨it, found⟩)
  · intro q it' found'
    obtain ⟨it, found, rfl⟩ := player q it' found'
    exact ⟨Carry.carry_left pos (by decide), Carry.carry_left pos (by decide)⟩
  · rw [find, found, Option.map_some]
  · rw [← ready.keyed p it found]
    rfl

/-- So many rounds carry the fighter's speed so many times. -/
theorem rounds_carried (ready : Ready w debug s lower_value) (found : s.Players.find p = some it) (unshot : it.left_yisu = 0)
    (std : StdSort) (n : Nat) :
    ∃ t it', rounds w std debug p s n = some (t, (Carry.carried 10000 lower_value (w.GetYisu p) n).1) ∧
      Ready w debug t lower_value ∧ t.Players.find p = some it' ∧
        it'.left_yisu = (Carry.carried 10000 lower_value (w.GetYisu p) n).2 := by
  induction n with
  | zero => exact ⟨s, it, rfl, ready, found, unshot⟩
  | succ n ih =>
    obtain ⟨t, it', played, ready', found', left⟩ := ih
    obtain ⟨u, calls, updated, ready'', it'', found'', round⟩ := ready'.Update found' std
    rw [left, Prod.mk.injEq] at round
    refine ⟨u, it'', ?_, ready'', found'', round.2⟩
    simp only [rounds, played, updated, found'', Option.bind_eq_bind, Option.bind_some, round.1]
    rfl

/-- **The rounds of a fighter** that begins with nothing left over are worth its speed that many times, for every number of
rounds, if and only if `lower_value` divides the speed in ten thousandths. -/
theorem rounds_iff (ready : Ready w debug s lower_value) (found : s.Players.find p = some it) (unshot : it.left_yisu = 0) :
    (∀ n : Nat, ∃ t, rounds w std debug p s n = some (t, n * w.GetYisu p / lower_value)) ↔
      lower_value ∣ w.GetYisu p * 10000 := by
  rw [← Carry.total_eq_iff ready.pos (by decide)]
  refine forall_congr' fun n => ?_
  obtain ⟨t, it', played, -⟩ := rounds_carried ready found unshot std n
  rw [played]
  constructor
  · rintro ⟨t', same⟩
    exact congrArg Prod.snd (Option.some.inj same)
  · intro same
    exact ⟨t, by rw [same]⟩

theorem Fresh.ready (fresh : Fresh w s) (differ : s.Yisus.size ≠ s.Gongsus.size) (lower : s.lower_value = some lower_value)
    (pos : 0 < lower_value)
    (small : ∀ p ∈ s.Players.keys, Small (w.GetYisu p) lower_value ∧ Small (w.GetGongsu p) lower_value) :
    Ready w debug s lower_value := by
  refine ⟨fun _ => differ, lower, pos, fresh.keyed, small, fun p it found => ?_⟩
  obtain ⟨left_yisu, left_gongsu⟩ := fresh.left p it found
  rw [left_yisu, left_gongsu]
  decide

/-- Half a shot a round. -/
theorem rounds_iff_three : ∃ s, Runs (step three .insertion true) Adding (FightInfo.new 2) joined s ∧
    ∀ n : Nat, ∃ t, rounds three .insertion true 1 s n = some (t, n * three.GetYisu 1 / 2) := by
  have ran : ∃ s, Runs (step three .insertion true) Adding (FightInfo.new 2) joined s ∧
      s.Yisus.size ≠ s.Gongsus.size ∧ s.lower_value = some 2 ∧ s.Players.keys = [1, 2, 3] := by
    apply Runs.exists_of_decide
    decide +kernel
  obtain ⟨s, run, differ, lower, players⟩ := ran
  have fresh := fresh_of_run run
  obtain ⟨it, found⟩ := OrderedMap.mem_keys.1 (show 1 ∈ s.Players.keys by simp [players])
  have ready : Ready three true s 2 := by
    refine fresh.ready differ lower (by decide) ?_
    rw [players]
    intro p mem
    obtain rfl | rfl | rfl : p = 1 ∨ p = 2 ∨ p = 3 := by simpa using mem
    all_goals exact ⟨⟨by decide, by decide, by decide⟩, ⟨by decide, by decide, by decide⟩⟩
  exact ⟨s, run, (rounds_iff ready found (fresh.left 1 it found).1).2 (by decide)⟩

/-- A fighter that is good for a third of a shot. -/
def slow : Fighters where
  GetYisu p := if p = 1 then 1 else 3
  GetGongsu p := 2 + p

/-- A third is 3333 ten thousandths, and of these nothing comes back: three rounds are worth no shot instead of one. -/
theorem rounds_lose : ∃ s, Runs (step slow .insertion true) Adding (FightInfo.new 2) joined s ∧ s.lower_value = some 3 ∧
    (rounds slow .insertion true 1 s 3).map Prod.snd = some 0 ∧ (3 : Int) * slow.GetYisu 1 / 3 = 1 := by
  have ran : ∃ s, Runs (step slow .insertion true) Adding (FightInfo.new 2) joined s ∧ s.lower_value = some 3 ∧
      (rounds slow .insertion true 1 s 3).map Prod.snd = some 0 := by
    apply Runs.exists_of_decide
    decide +kernel
  obtain ⟨s, run, lower, played⟩ := ran
  exact ⟨s, run, lower, played, by decide⟩

end LeftOver

end GameServer.Fights

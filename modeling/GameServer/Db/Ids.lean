import GameServer.Lib.Run
import Mathlib.Data.List.Nodup
import Mathlib.Data.List.Range
import Mathlib.Data.Nat.Bitwise

/-!
# Database ids

`getDBID` joins the server's number, a time and a counter of 24 bits. The counter is shifted in
32-bit arithmetic and then widened with its sign: from its upper half on the sign covers the
time, so that the ids of the upper half are the same after every refill (`idOf_upper`). Ids are
distinct exactly up to there (`ids_distinct`).
-/

namespace GameServer.Db.Ids

open GameServer.Lib

structure Application where
  m_dbid : BitVec 64
  m_increment : BitVec 32
  m_id : BitVec 64
  /-- The ids returned so far. -/
  issued : List (BitVec 64)

/-- The constructor, at this time. -/
def Application.init (m_id : BitVec 64) (time : Nat) : Application :=
  ⟨BitVec.ofNat 64 time <<< 32, 0, m_id, []⟩

/-- `GET_DBIDUNIQUE`. -/
def GET_DBIDUNIQUE (unique : BitVec 32) : BitVec 32 := unique <<< 8

/-- The counter is used up. -/
def Application.full (s : Application) : Prop := 0xFFFFFF < s.m_increment.toInt

instance (s : Application) : Decidable s.full := inferInstanceAs (Decidable (_ < _))

/-- The head of `getDBID`; `time` is `time(NULL)`. -/
def Application.refill (s : Application) (time : Nat) : Application :=
  if s.full then { s with m_dbid := BitVec.ofNat 64 time <<< 32, m_increment := 0 } else s

/-- `getDBID`. -/
def Application.getDBID (s : Application) (time : Nat) : Application :=
  let s := s.refill time
  let id := s.m_id ||| s.m_dbid ||| (GET_DBIDUNIQUE s.m_increment).signExtend 64
  { s with m_increment := s.m_increment + 1, issued := s.issued ++ [id] }

def step (s : Application) (time : Nat) : Option Application := some (s.getDBID time)

/-- The clock is below `2 ^ 31`, and at a refill past the time in use. -/
def Later (s : Application) (time : Nat) : Prop := s.full → (s.m_dbid >>> 32).toNat < time ∧ time < 2 ^ 31

/-- The id with these parts. -/
def idOf (m_id : BitVec 64) (time k : Nat) : BitVec 64 :=
  m_id ||| BitVec.ofNat 64 time <<< 32 ||| (GET_DBIDUNIQUE (BitVec.ofNat 32 k)).signExtend 64

section Parts

variable {m_id : BitVec 64} {time time' k k' : Nat}

theorem toNat_unique (small : k < 2 ^ 24) : (GET_DBIDUNIQUE (BitVec.ofNat 32 k)).toNat = k * 2 ^ 8 := by
  rw [GET_DBIDUNIQUE, BitVec.toNat_shiftLeft, BitVec.toNat_ofNat, Nat.shiftLeft_eq]
  omega

theorem msb_unique (small : k < 2 ^ 24) : (GET_DBIDUNIQUE (BitVec.ofNat 32 k)).msb = decide (2 ^ 23 ≤ k) := by
  rw [BitVec.msb_eq_decide, toNat_unique small]
  congr 1
  apply propext
  constructor <;> intro _ <;> omega

/-- The lower half of an id is the server's number and the counter. -/
theorem low_idOf (byte : m_id.toNat < 2 ^ 8) (small : k < 2 ^ 24) :
    ((idOf m_id time k).setWidth 32).toNat = k * 2 ^ 8 + m_id.toNat := by
  have low : (idOf m_id time k).setWidth 32 = m_id.setWidth 32 ||| GET_DBIDUNIQUE (BitVec.ofNat 32 k) := by
    apply BitVec.eq_of_getLsbD_eq
    intro i bound
    have wide : i < 64 := by omega
    simp [idOf, BitVec.getElem_signExtend, bound, wide]
  have number : (m_id.setWidth 32).toNat = m_id.toNat := by
    rw [BitVec.toNat_setWidth]
    omega
  rw [low, BitVec.toNat_or, number, toNat_unique small, Nat.or_comm, ← Nat.shiftLeft_eq,
    Nat.shiftLeft_add_eq_or_of_lt byte]

theorem counter_eq (byte : m_id.toNat < 2 ^ 8) (small : k < 2 ^ 24) (small' : k' < 2 ^ 24)
    (same : idOf m_id time k = idOf m_id time' k') : k = k' := by
  have low : ((idOf m_id time k).setWidth 32).toNat = k * 2 ^ 8 + m_id.toNat := low_idOf byte small
  rw [same, low_idOf byte small'] at low
  omega

/-- In the upper half of the counter the sign covers the time. -/
theorem idOf_upper (small : k < 2 ^ 24) (upper : 2 ^ 23 ≤ k) : idOf m_id time k = idOf m_id time' k := by
  have msb := msb_unique small
  rw [decide_eq_true upper] at msb
  apply BitVec.eq_of_getLsbD_eq
  intro i bound
  by_cases half : i < 32
  · simp [idOf, half]
  · simp [idOf, BitVec.getElem_signExtend, bound, half, msb]

/-- In the lower half the upper half of an id is the time. -/
theorem high_idOf (byte : m_id.toNat < 2 ^ 8) (lower : k < 2 ^ 23) (bound : time < 2 ^ 31) :
    (idOf m_id time k >>> 32).toNat = time := by
  have msb := msb_unique (k := k) (by omega)
  rw [decide_eq_false (by omega)] at msb
  have shifted : (BitVec.ofNat 64 time <<< 32).toNat = time <<< 32 := by
    rw [BitVec.toNat_shiftLeft, BitVec.toNat_ofNat, Nat.shiftLeft_eq, Nat.shiftLeft_eq]
    omega
  have counter : ((GET_DBIDUNIQUE (BitVec.ofNat 32 k)).signExtend 64).toNat = k <<< 8 := by
    rw [BitVec.signExtend_eq_setWidth_of_msb_false msb, BitVec.toNat_setWidth, toNat_unique (by omega), Nat.shiftLeft_eq]
    omega
  have whole : (idOf m_id time k).toNat = time <<< 32 + (k <<< 8 + m_id.toNat) := by
    have half : k <<< 8 + m_id.toNat < 2 ^ 32 := by
      rw [Nat.shiftLeft_eq]
      omega
    rw [idOf, BitVec.toNat_or, BitVec.toNat_or, shifted, counter, Nat.or_comm m_id.toNat, Nat.or_assoc,
      Nat.or_comm m_id.toNat, Nat.shiftLeft_add_eq_or_of_lt half, Nat.shiftLeft_add_eq_or_of_lt byte]
  rw [BitVec.toNat_ushiftRight, whole, Nat.shiftRight_eq_div_pow, Nat.shiftLeft_eq, Nat.shiftLeft_eq]
  omega

end Parts

/-- After `n` calls: the time of each refill so far, and the ids made of them. -/
structure Counted (m_id : BitVec 64) (n : Nat) (time : Nat → Nat) (s : Application) : Prop where
  number : s.m_id = m_id
  increment : s.m_increment.toNat = if n = 0 then 0 else (n - 1) % 2 ^ 24 + 1
  dbid : s.m_dbid = BitVec.ofNat 64 (time ((n - 1) / 2 ^ 24)) <<< 32
  bound : ∀ i, i ≤ (n - 1) / 2 ^ 24 → time i < 2 ^ 31
  later : ∀ i j, i < j → j ≤ (n - 1) / 2 ^ 24 → time i < time j
  issued : s.issued = (List.range n).map fun k => idOf m_id (time (k / 2 ^ 24)) (k % 2 ^ 24)

section Runs

variable {m_id : BitVec 64} {time : Nat → Nat} {n now t₀ : Nat} {s t : Application} {as : List Nat}

theorem Counted.full_iff (counted : Counted m_id n time s) : s.full ↔ 0 < n ∧ n % 2 ^ 24 = 0 := by
  have increment := counted.increment
  have small : 2 * s.m_increment.toNat < 2 ^ 32 := by
    split at increment <;> omega
  rw [Application.full, BitVec.toInt_eq_toNat_of_lt small, increment]
  split <;> omega

theorem Counted.init (bound : t₀ < 2 ^ 31) : Counted m_id 0 (fun _ => t₀) (.init m_id t₀) where
  number := rfl
  increment := rfl
  dbid := rfl
  bound _ _ := bound
  later i j less le := by omega
  issued := rfl

theorem toNat_time (bound : now < 2 ^ 31) : (BitVec.ofNat 64 now <<< 32 >>> 32).toNat = now := by
  rw [BitVec.toNat_ushiftRight, BitVec.toNat_shiftLeft, BitVec.toNat_ofNat, Nat.shiftLeft_eq, Nat.shiftRight_eq_div_pow]
  omega

/-- After the head of `getDBID` the counter is the number of ids since the last refill. -/
theorem Counted.refill (counted : Counted m_id n time s) (later : Later s now) :
    ∃ time' : Nat → Nat, (s.refill now).m_id = m_id ∧ (s.refill now).m_increment = BitVec.ofNat 32 (n % 2 ^ 24) ∧
      (s.refill now).m_dbid = BitVec.ofNat 64 (time' (n / 2 ^ 24)) <<< 32 ∧ (∀ i, i ≤ n / 2 ^ 24 → time' i < 2 ^ 31) ∧
      (∀ i j, i < j → j ≤ n / 2 ^ 24 → time' i < time' j) ∧
      (s.refill now).issued = (List.range n).map fun k => idOf m_id (time' (k / 2 ^ 24)) (k % 2 ^ 24) := by
  have increment := counted.increment
  have full := counted.full_iff
  unfold Application.refill
  split_ifs with used
  · obtain ⟨pos, whole⟩ := full.1 used
    have last : (n - 1) / 2 ^ 24 + 1 = n / 2 ^ 24 := by omega
    have old : ∀ i, i < n / 2 ^ 24 → Function.update time (n / 2 ^ 24) now i = time i := by
      intro i less
      exact Function.update_of_ne (by omega) _ _
    obtain ⟨past, bound⟩ := later used
    rw [counted.dbid, toNat_time (counted.bound _ (Nat.le_refl _))] at past
    refine ⟨Function.update time (n / 2 ^ 24) now, counted.number, by rw [whole]; rfl, ?_, ?_, ?_, ?_⟩
    · rw [Function.update_self]
    · intro i le
      rcases Nat.lt_or_eq_of_le le with less | rfl
      · rw [old i less]
        exact counted.bound i (by omega)
      · rw [Function.update_self]
        exact bound
    · intro i j less le
      rcases Nat.lt_or_eq_of_le le with inside | rfl
      · rw [old i (by omega), old j inside]
        exact counted.later i j less (by omega)
      · rw [old i less, Function.update_self]
        rcases Nat.lt_or_eq_of_le (show i ≤ (n - 1) / 2 ^ 24 by omega) with before | rfl
        · exact Nat.lt_trans (counted.later i _ before (Nat.le_refl _)) past
        · exact past
    · show s.issued = _
      rw [counted.issued]
      refine List.map_congr_left fun k mem => ?_
      have inside := List.mem_range.1 mem
      rw [old (k / 2 ^ 24) (by omega)]
  · rw [full] at used
    have same : (n - 1) / 2 ^ 24 = n / 2 ^ 24 := by omega
    obtain ⟨number, -, dbid, bound, later, issued⟩ := counted
    rw [same] at dbid bound later
    refine ⟨time, number, ?_, dbid, bound, later, issued⟩
    apply BitVec.eq_of_toNat_eq
    rw [increment, BitVec.toNat_ofNat]
    split <;> omega

theorem Counted.getDBID (counted : Counted m_id n time s) (later : Later s now) :
    ∃ time', Counted m_id (n + 1) time' (s.getDBID now) := by
  obtain ⟨time', number, increment, dbid, bound, sorted, issued⟩ := counted.refill later
  refine ⟨time', number, ?_, dbid, bound, sorted, ?_⟩
  · show ((s.refill now).m_increment + 1).toNat = _
    have one : (1 : BitVec 32).toNat = 1 := rfl
    rw [increment, if_neg (by omega), BitVec.toNat_add, BitVec.toNat_ofNat, Nat.add_sub_cancel, one]
    omega
  · show (s.refill now).issued ++ [(s.refill now).m_id ||| (s.refill now).m_dbid |||
      (GET_DBIDUNIQUE (s.refill now).m_increment).signExtend 64] = _
    rw [issued, number, dbid, increment, List.range_succ, List.map_append]
    rfl

theorem counted_of_runs (bound : t₀ < 2 ^ 31) (run : Runs step Later (.init m_id t₀) as s) :
    ∃ time, Counted m_id as.length time s := by
  induction run with
  | refl => exact ⟨_, .init bound⟩
  | snoc _ later next ih =>
    obtain ⟨time, counted⟩ := ih
    obtain rfl := Option.some.inj next
    rw [List.length_append]
    exact counted.getDBID later

/-- Two ids are the same when they have the same count, from the upper half, and come from two
refills. -/
theorem Counted.same_iff (counted : Counted m_id n time s) (byte : m_id.toNat < 2 ^ 8) {j k : Nat} (less : j < k) (inside : k < n) :
    idOf m_id (time (j / 2 ^ 24)) (j % 2 ^ 24) = idOf m_id (time (k / 2 ^ 24)) (k % 2 ^ 24) ↔
      j % 2 ^ 24 = k % 2 ^ 24 ∧ 2 ^ 23 ≤ k % 2 ^ 24 := by
  have small : ∀ i, i % 2 ^ 24 < 2 ^ 24 := fun i => Nat.mod_lt i (by decide)
  constructor
  · intro same
    have counter := counter_eq byte (small j) (small k) same
    refine ⟨counter, ?_⟩
    by_contra lower
    have lower : k % 2 ^ 24 < 2 ^ 23 := by omega
    have high := congrArg (fun id : BitVec 64 => (id >>> 32).toNat) same
    simp only [counter] at high
    rw [high_idOf byte lower (counted.bound _ (by omega)), high_idOf byte lower (counted.bound _ (by omega))] at high
    have := counted.later (j / 2 ^ 24) (k / 2 ^ 24) (by omega) (by omega)
    omega
  · rintro ⟨counter, upper⟩
    rw [counter]
    exact idOf_upper (small k) upper

/-- The ids so far are distinct as long as the second time through the counter has not come to
its upper half. -/
theorem Counted.nodup_iff (counted : Counted m_id n time s) (byte : m_id.toNat < 2 ^ 8) :
    s.issued.Nodup ↔ n ≤ 2 ^ 24 + 2 ^ 23 := by
  rw [counted.issued, List.nodup_map_iff_inj_on List.nodup_range]
  simp only [List.mem_range]
  constructor
  · intro distinct
    by_contra more
    have same := (counted.same_iff byte (j := 2 ^ 23) (k := 2 ^ 24 + 2 ^ 23) (by omega) (by omega)).2 (by omega)
    have := distinct _ (by omega) _ (by omega) same
    omega
  · intro short j before k inside same
    rcases Nat.lt_trichotomy j k with less | equal | more
    · have := (counted.same_iff byte less inside).1 same
      omega
    · exact equal
    · have := (counted.same_iff byte more before).1 same.symm
      omega

/-- **Ids are distinct** exactly in the runs of at most `2 ^ 24 + 2 ^ 23` calls. -/
theorem ids_distinct (byte : m_id.toNat < 2 ^ 8) (bound : t₀ < 2 ^ 31) (run : Runs step Later (.init m_id t₀) as s) :
    s.issued.Nodup ↔ as.length ≤ 2 ^ 24 + 2 ^ 23 := by
  obtain ⟨time, counted⟩ := counted_of_runs bound run
  exact counted.nodup_iff byte

end Runs

/-- Two calls in the second the server started in. -/
theorem ids_distinct_two : ∃ s, Runs step Later (.init 1 5) [5, 5] s ∧ s.issued = [0x500000001, 0x500000101] ∧ s.issued.Nodup := by
  have run : Runs step Later (.init 1 5) ([] ++ [5] ++ [5]) (((Application.init 1 5).getDBID 5).getDBID 5) := by
    refine .snoc (.snoc .refl (fun full => ?_) rfl) (fun full => ?_) rfl
    · exact absurd full (by decide)
    · exact absurd full (by decide)
  exact ⟨_, run, by decide, (ids_distinct (by decide) (by decide) run).2 (by decide)⟩

/-- As many calls as twice through the counter, with one refill, a second after the start. -/
theorem exists_run_replicate (m_id : BitVec 64) {t₀ n : Nat} (bound : t₀ + 1 < 2 ^ 31) (le : n ≤ 2 ^ 25) :
    ∃ s, Runs step Later (.init m_id t₀) (List.replicate n (t₀ + 1)) s ∧
      (n ≤ 2 ^ 24 → s.m_dbid = BitVec.ofNat 64 t₀ <<< 32) := by
  induction n with
  | zero => exact ⟨_, .refl, fun _ => rfl⟩
  | succ n ih =>
    obtain ⟨s, run, first⟩ := ih (by omega)
    obtain ⟨time, counted⟩ := counted_of_runs (by omega) run
    rw [List.length_replicate] at counted
    have full := counted.full_iff
    refine ⟨s.getDBID (t₀ + 1), ?_, ?_⟩
    · rw [List.replicate_succ']
      refine run.snoc (fun used => ?_) rfl
      have := full.1 used
      rw [first (by omega), toNat_time (by omega)]
      exact ⟨Nat.lt_succ_self t₀, bound⟩
    · intro short
      have same : s.refill (t₀ + 1) = s := if_neg fun used => by have := full.1 used; omega
      show (s.refill (t₀ + 1)).m_dbid = _
      rw [same]
      exact first (by omega)

/-- With one refill the first id of the upper half comes again. -/
theorem ids_repeat : ∃ as s, Runs step Later (.init 1 1) as s ∧ ¬ s.issued.Nodup := by
  have enough : 2 ^ 24 + 2 ^ 23 + 1 ≤ 2 ^ 25 := by omega
  have bound : 1 + 1 < 2 ^ 31 := by omega
  obtain ⟨s, run, -⟩ := exists_run_replicate 1 bound enough
  obtain ⟨time, counted⟩ := counted_of_runs (by omega) run
  rw [List.length_replicate] at counted
  refine ⟨_, s, run, ?_⟩
  rw [counted.nodup_iff (by decide)]
  omega

end GameServer.Db.Ids

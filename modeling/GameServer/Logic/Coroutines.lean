import GameServer.Lib.Run
import Mathlib.Data.List.Count

/-!
# The coroutine manager

Coroutines are made in advance: `Alloc` takes one from `_pool` under a new id, `Free` puts it aside and
`update` destroys what was put aside and gives it back to `_pool`.

`Alloc` does its work twice. The slot it takes is entered under two ids, and the slot at the front of the
pool after that is dropped, from an empty pool if need be. So the slots keep one owner each in exactly
those runs that never call `Alloc` (`slots_owned`).
-/

namespace GameServer.Logic

open GameServer.Lib

/-- `_coroutine` and `_fn` are made together and are one slot; slots are counted as they are made. -/
structure CoroutineItem where
  slot : Nat
  bregist : Bool
  deriving DecidableEq, Repr

structure CoroutineManager where
  pool : List CoroutineItem
  /-- A map with the ids cut to `int32`. -/
  used : List (BitVec 32 × CoroutineItem)
  frees : List CoroutineItem
  dbid : BitVec 64
  /-- The slots made so far. -/
  made : Nat
  deriving DecidableEq, Repr

namespace CoroutineManager

/-- The loop that makes `count` coroutines. -/
def make (m : CoroutineManager) (count : Nat) : CoroutineManager :=
  { m with
    pool := m.pool ++ (List.range' m.made count).map fun slot => ⟨slot, false⟩
    made := m.made + count }

def init : CoroutineManager := make ⟨[], [], [], 0, 0⟩ 64

/-- `_used[id] = p`. -/
def put (used : List (BitVec 32 × CoroutineItem)) (id : BitVec 64) (p : CoroutineItem) : List (BitVec 32 × CoroutineItem) :=
  (id.setWidth 32, p) :: used.filter fun e => e.1 ≠ id.setWidth 32

def find (m : CoroutineManager) (id : BitVec 64) : Option CoroutineItem :=
  (m.used.find? fun e => e.1 = id.setWidth 32).map Prod.snd

/-- `_pool.pop_front()`, after which `p` is entered under the next id. -/
def enter (m : CoroutineManager) (p : CoroutineItem) : CoroutineManager :=
  { m with pool := m.pool.tail, dbid := m.dbid + 1, used := put m.used (m.dbid + 1) p }

/-- What `Alloc` does when the pool has run empty: below 512 slots in use the test inside keeps it from
making any. -/
def refill (m : CoroutineManager) : CoroutineManager :=
  if m.pool.length = 0 then if 512 ≤ m.used.length then m.make m.used.length else m else m

/-- `Alloc` and the id it returns; `none` stands for `front` or `pop_front` of an empty list. -/
def Alloc (m : CoroutineManager) : Option (CoroutineManager × BitVec 64) :=
  match m.pool with
  | [] => none
  | p :: _ =>
    let m := (m.enter p).refill
    if m.pool = [] then none
    else
      let m := m.enter p
      some (m, m.dbid)

/-- `RegistFunc` and the answer it returns. -/
def RegistFunc (m : CoroutineManager) (id : BitVec 64) : CoroutineManager × Bool :=
  match m.find id with
  | none => (m, false)
  | some temp => if temp.bregist then (m, false) else ({ m with used := put m.used id { temp with bregist := true } }, true)

def Free (m : CoroutineManager) (id : BitVec 64) : CoroutineManager :=
  match m.find id with
  | none => m
  | some p => { m with frees := m.frees ++ [p], used := m.used.filter fun e => e.1 ≠ id.setWidth 32 }

/-- `update` destroys the slots of `_frees`, one after the other. -/
def update (m : CoroutineManager) : CoroutineManager :=
  { m with pool := m.pool ++ m.frees.map fun p => { p with bregist := false }, frees := [] }

inductive Act where
  | alloc
  | registFunc (id : BitVec 64)
  | free (id : BitVec 64)
  | update
  deriving DecidableEq, Repr

def step (m : CoroutineManager) : Act → Option CoroutineManager
  | .alloc => m.Alloc.map Prod.fst
  | .registFunc id => some (m.RegistFunc id).1
  | .free id => some (m.Free id)
  | .update => some m.update

/-- The slots of the three containers. -/
def slots (m : CoroutineManager) : List Nat :=
  m.pool.map CoroutineItem.slot ++ m.used.map (fun e => e.2.slot) ++ m.frees.map CoroutineItem.slot

/-- Every slot has one owner. -/
structure Owned (m : CoroutineManager) : Prop where
  once : ∀ slot < m.made, m.slots.count slot = 1
  oneId : ∀ e ∈ m.used, ∀ f ∈ m.used, e.2.slot = f.2.slot → e.1 = f.1
  /-- The next `update` destroys no slot twice. -/
  destroyed : (m.frees.map CoroutineItem.slot).Nodup
  /-- The next `Alloc` does not come to an empty pool. -/
  taken : m.Alloc.isSome

section Steps

variable {m n : CoroutineManager} {id : BitVec 64}

theorem setWidth_succ_ne (id : BitVec 64) : (id + 1).setWidth 32 ≠ id.setWidth 32 := by
  intro same
  have low := congrArg BitVec.toNat same
  have one : (1 : BitVec 64).toNat = 1 := rfl
  rw [BitVec.toNat_setWidth, BitVec.toNat_setWidth, BitVec.toNat_add, one] at low
  omega

@[simp] theorem used_refill (m : CoroutineManager) : m.refill.used = m.used := by
  unfold refill make
  split
  · split <;> rfl
  · rfl

@[simp] theorem dbid_refill (m : CoroutineManager) : m.refill.dbid = m.dbid := by
  unfold refill make
  split
  · split <;> rfl
  · rfl

/-- The slot that `Alloc` takes is in use under two ids. -/
theorem shared_alloc (alloc : m.Alloc = some (n, id)) :
    ∃ p ∈ m.pool, ∃ first second, first ≠ second ∧ (first, p) ∈ n.used ∧ (second, p) ∈ n.used := by
  unfold Alloc at alloc
  split at alloc
  · cases alloc
  · next p rest pool =>
    obtain ⟨-, taken⟩ := Option.ite_none_left_eq_some.1 alloc
    obtain ⟨rfl, -⟩ := Prod.mk.inj (Option.some.inj taken)
    have later := setWidth_succ_ne (m.dbid + 1)
    refine ⟨p, by rw [pool]; exact List.mem_cons_self, (m.dbid + 1).setWidth 32, (m.dbid + 1 + 1).setWidth 32,
      later.symm, ?_, ?_⟩
    · simp only [enter, used_refill, dbid_refill, put]
      apply List.mem_cons_of_mem
      apply List.mem_filter.2
      exact ⟨List.mem_cons_self, by simpa using later.symm⟩
    · simp only [enter, dbid_refill, put]
      exact List.mem_cons_self

theorem not_owned_alloc (alloc : m.Alloc = some (n, id)) : ¬ Owned n := by
  intro owned
  obtain ⟨p, -, first, second, ne, memFirst, memSecond⟩ := shared_alloc alloc
  exact ne (owned.oneId _ memFirst _ memSecond rfl)

theorem owned_init : Owned init := by
  refine ⟨by decide, ?_, List.nodup_nil, by decide⟩
  intro e mem
  cases mem

/-- Before the first `Alloc` nothing is ever in use, so nothing changes. -/
theorem step_init {a : Act} (kept : a ≠ .alloc) (next : step init a = some n) : n = init := by
  cases a with
  | alloc => exact absurd rfl kept
  | registFunc id | free id | update => exact (Option.some.inj next).symm

end Steps

/-- **Ownership of the slots**: all along a run every slot has one owner, if and only if the run does not
call `Alloc`. -/
theorem slots_owned {as : List Act} {m : CoroutineManager} (run : Runs step (fun _ _ => True) init as m) :
    (∀ bs n, bs <+: as → Runs step (fun _ _ => True) init bs n → Owned n) ↔ .alloc ∉ as := by
  have exact' : (∀ bs n, bs <+: as → Runs step (fun _ _ => True) init bs n → Owned n) ↔
      Runs step (fun _ a => a ≠ .alloc) init as m := by
    apply run.always_iff (fun m => m = init) rfl
    · rintro m rfl
      exact owned_init
    · rintro m a n rfl kept next
      exact step_init kept next
    · rintro m a n rfl alloc next
      obtain rfl := not_not.1 alloc
      rw [step] at next
      obtain ⟨⟨n, id⟩, alloc, rfl⟩ := Option.map_eq_some_iff.1 next
      exact not_owned_alloc alloc
  rw [exact', run.iff_forall]
  constructor
  · intro all mem
    exact all .alloc mem rfl
  · intro not a mem same
    exact not (same ▸ mem)

/-- A run with an id that was never given out, and an update. -/
theorem slots_owned_idle : ∃ m, Runs step (fun _ _ => True) init [.free 1, .update] m ∧ Owned m := by
  have reached : ∃ m, Runs step (fun _ _ => True) init [.free 1, .update] m ∧ True := by
    apply Runs.exists_of_decide
    decide
  obtain ⟨m, run, -⟩ := reached
  exact ⟨m, run, (slots_owned run).2 (by decide) _ m (List.prefix_refl _) run⟩

/-- After one `Alloc` slot 0 is in use as 1 and as 2, and slot 1 is in no container. -/
theorem slot_shared : ∃ m, Runs step (fun _ _ => True) init [.alloc] m ∧
    m.used.map (fun e => (e.1, e.2.slot)) = [(2, 0), (1, 0)] ∧ m.slots.count 1 = 0 ∧ ¬ Owned m := by
  have reached : ∃ m, Runs step (fun _ _ => True) init [.alloc] m ∧
      (m.used.map (fun e => (e.1, e.2.slot)) = [(2, 0), (1, 0)] ∧ m.slots.count 1 = 0 ∧ m.slots.count 0 = 2 ∧ 0 < m.made) := by
    apply Runs.exists_of_decide
    decide
  obtain ⟨m, run, used, dropped, twice, made⟩ := reached
  refine ⟨m, run, used, dropped, fun owned => ?_⟩
  have once := owned.once 0 made
  omega

end CoroutineManager

end GameServer.Logic

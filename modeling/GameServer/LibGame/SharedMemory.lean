import GameServer.LibGame.SharedObject
import Mathlib.Logic.Function.Basic

/-!
# The pool of shared blocks

`NewObject` takes a block from the free list; when there is none, `clearDirtyBlock` looks at the
blocks that were given out, one after the other, and puts those back that are neither in use nor to
be saved nor being handled, and when it finds none a page is created. The saver works on all blocks
at the same time.

`clearDirtyBlock` does not look at `m_destroy`, so a block that is to be deleted is given out again
before the saver has come to it (`delete_forgotten`). With no such turn of the loop it is not
(`deletes_kept`).
-/

namespace GameServer.LibGame

open GameServer.Lib

/-- `clearDirtyBlock` inside a `NewObject`: the blocks before the iterator, and from it on. -/
structure Sweep where
  bCreate : Bool
  seen : List Nat
  rest : List Nat
  deriving DecidableEq, Repr

/-- The iterator stands on the next block after `erase`, and goes on once more. After the last one it
is the end of a list that is linked in a circle, and goes to its beginning. -/
def Sweep.skip (bCreate : Bool) (seen : List Nat) : List Nat → Sweep
  | [] => ⟨bCreate, [], seen⟩
  | c :: rest => ⟨bCreate, seen ++ [c], rest⟩

structure SharedMemory (V : Type) where
  blocks : Nat → Block V
  m_PageSize : Nat
  m_ObjectCount : Nat
  m_FreeObjectCollect : List Nat
  m_UsedObjectCollect : List Nat
  sweep : Option Sweep
  clock : Nat
  /-- The blocks that were given out, each with its `m_destroy` before. -/
  given : List (Nat × Bool)

namespace SharedMemory

variable {V : Type} [Inhabited V]

/-- A block of a page that was just created. -/
def newBlock : Block V := ⟨.init, default, .idle, none, none, none⟩

def init (pagesize clock : Nat) : SharedMemory V :=
  ⟨fun _ => newBlock, pagesize, pagesize, List.range pagesize, [], none, clock, []⟩

def setObject (m : SharedMemory V) (b : Nat) (o : SharedObject) : SharedMemory V :=
  { m with blocks := Function.update m.blocks b { m.blocks b with object := o } }

def createPage (m : SharedMemory V) : SharedMemory V :=
  { m with
    blocks := fun b => if m.m_ObjectCount ≤ b ∧ b < m.m_ObjectCount + m.m_PageSize then newBlock else m.blocks b
    m_ObjectCount := m.m_ObjectCount + m.m_PageSize
    m_FreeObjectCollect := m.m_FreeObjectCollect ++ List.range' m.m_ObjectCount m.m_PageSize }

/-- The end of `NewObject`: the first free block is constructed again and given out. -/
def take (m : SharedMemory V) (bCreate : Bool) : SharedMemory V :=
  match m.m_FreeObjectCollect with
  | [] => { m with sweep := none }
  | b :: free =>
    { m with
      blocks := Function.update m.blocks b
        { m.blocks b with object := { SharedObject.init with m_used := true, m_create := bCreate }, value := default }
      m_FreeObjectCollect := free
      m_UsedObjectCollect := m.m_UsedObjectCollect ++ [b]
      sweep := none
      given := m.given ++ [(b, (m.blocks b).object.m_destroy)] }

def NewObject (m : SharedMemory V) (bCreate : Bool) : SharedMemory V :=
  if m.m_FreeObjectCollect = [] then { m with sweep := some ⟨bCreate, [], m.m_UsedObjectCollect⟩ } else m.take bCreate

/-- The test of `clearDirtyBlock`. -/
def reclaims (o : SharedObject) : Bool := !o.NeedHandle && !o.IsHandling && !o.m_used

/-- The next turn of the loop of `clearDirtyBlock`, or what comes after it. -/
def clearDirtyBlock (m : SharedMemory V) : Sweep → SharedMemory V
  | ⟨bCreate, _, []⟩ => (if m.m_FreeObjectCollect = [] then m.createPage else m).take bCreate
  | ⟨bCreate, seen, b :: rest⟩ =>
    if reclaims (m.blocks b).object then
      { m with
        m_FreeObjectCollect := m.m_FreeObjectCollect ++ [b]
        m_UsedObjectCollect := seen ++ rest
        sweep := some (.skip bCreate seen rest) }
    else { m with sweep := some ⟨bCreate, seen ++ [b], rest⟩ }

inductive Act (V : Type) where
  | tick
  | newObject (bCreate : Bool)
  /-- The game process goes on with `clearDirtyBlock`. -/
  | turn
  | lock (b : Nat)
  | modify (b : Nat) (value : V)
  | unlock (b : Nat)
  | release (b : Nat)
  | destroy (b : Nat)
  | saver (b : Nat) (act : SaverAct)
  deriving DecidableEq, Repr

/-- A call of the game process, which is in no other call. -/
def game (m : SharedMemory V) (next : SharedMemory V) : Option (SharedMemory V) :=
  if m.sweep = none then some next else none

def step (m : SharedMemory V) : Act V → Option (SharedMemory V)
  | .tick => some { m with clock := m.clock + 1 }
  | .newObject bCreate => m.game (m.NewObject bCreate)
  | .turn => m.sweep.map m.clearDirtyBlock
  | .lock b => m.game (m.setObject b (m.blocks b).object.Lock)
  | .modify b value => m.game { m with blocks := Function.update m.blocks b { m.blocks b with value := value } }
  | .unlock b => m.game (m.setObject b ((m.blocks b).object.Unlock m.clock))
  | .release b => m.game (m.setObject b (m.blocks b).object.Release)
  | .destroy b => m.game (m.setObject b (m.blocks b).object.Destroy)
  | .saver b act => ((m.blocks b).saver m.clock act).map fun block => { m with blocks := Function.update m.blocks b block }

/-- `Destroy` is not for a free block, and a block that `clearDirtyBlock` looks at and that is to be
deleted is in use, needs handling or is being handled. -/
def Pending (m : SharedMemory V) : Act V → Prop
  | .destroy b => b ∉ m.m_FreeObjectCollect
  | .turn => ∀ sweep ∈ m.sweep, ∀ b ∈ sweep.rest.head?, (m.blocks b).object.m_destroy = true →
      reclaims (m.blocks b).object = false
  | _ => True

instance (m : SharedMemory V) : (a : Act V) → Decidable (Pending m a)
  | .destroy _ => inferInstanceAs (Decidable (_ ∉ _))
  | .turn => inferInstanceAs (Decidable (∀ sweep ∈ m.sweep, ∀ b ∈ sweep.rest.head?, _))
  | .tick | .newObject _ | .lock _ | .modify _ _ | .unlock _ | .release _ | .saver _ _ => inferInstanceAs (Decidable True)

/-- No free block is to be deleted, and none was when it was given out. -/
structure Inv (m : SharedMemory V) : Prop where
  free : ∀ b ∈ m.m_FreeObjectCollect, (m.blocks b).object.m_destroy = false
  given : ∀ e ∈ m.given, e.2 = false

section Steps

variable {m n : SharedMemory V} {a : Act V} {b : Nat} {block : Block V} {bCreate : Bool} {time : Nat}

theorem Inv.init (pagesize clock : Nat) : Inv (init pagesize clock : SharedMemory V) where
  free _ _ := rfl
  given _ mem := by cases mem

omit [Inhabited V] in
/-- A change to a block that does not set `m_destroy`, unless it is not free. -/
theorem Inv.update (inv : Inv m)
    (kept : b ∈ m.m_FreeObjectCollect → (m.blocks b).object.m_destroy = false → block.object.m_destroy = false) :
    Inv { m with blocks := Function.update m.blocks b block } := by
  refine ⟨fun c mem => ?_, inv.given⟩
  show (Function.update m.blocks b block c).object.m_destroy = false
  by_cases same : c = b
  · subst same
    rw [Function.update_self]
    exact kept mem (inv.free c mem)
  · rw [Function.update_of_ne same]
    exact inv.free c mem

theorem Inv.createPage (inv : Inv m) : Inv m.createPage := by
  refine ⟨fun b mem => ?_, inv.given⟩
  show (if m.m_ObjectCount ≤ b ∧ b < m.m_ObjectCount + m.m_PageSize then newBlock else m.blocks b).object.m_destroy = false
  rcases List.mem_append.1 mem with mem | mem
  · split
    · rfl
    · exact inv.free b mem
  · rw [List.mem_range'_1] at mem
    rw [if_pos mem]
    rfl

theorem Inv.take (inv : Inv m) : Inv (m.take bCreate) := by
  unfold SharedMemory.take
  split
  · exact ⟨inv.free, inv.given⟩
  · next b free list =>
    have first : (m.blocks b).object.m_destroy = false := inv.free b (by rw [list]; exact List.mem_cons_self)
    refine ⟨fun c mem => ?_, fun e mem => ?_⟩
    · show (Function.update m.blocks b _ c).object.m_destroy = false
      by_cases same : c = b
      · subst same
        rw [Function.update_self]
        rfl
      · rw [Function.update_of_ne same]
        exact inv.free c (by rw [list]; exact List.mem_cons_of_mem b mem)
    · rcases List.mem_append.1 mem with mem | mem
      · exact inv.given e mem
      · obtain rfl := List.mem_singleton.1 mem
        exact first

theorem Inv.clearDirtyBlock {sweep : Sweep} (inv : Inv m)
    (pending : ∀ b ∈ sweep.rest.head?, (m.blocks b).object.m_destroy = true → reclaims (m.blocks b).object = false) :
    Inv (m.clearDirtyBlock sweep) := by
  obtain ⟨bCreate, seen, rest⟩ := sweep
  cases rest with
  | nil =>
    rw [SharedMemory.clearDirtyBlock]
    split
    · exact inv.createPage.take
    · exact inv.take
  | cons b rest =>
    rw [SharedMemory.clearDirtyBlock]
    split
    · next reclaimed =>
      refine ⟨fun c mem => ?_, inv.given⟩
      rcases List.mem_append.1 mem with mem | mem
      · exact inv.free c mem
      · obtain rfl := List.mem_singleton.1 mem
        by_contra set
        rw [pending c rfl (Bool.not_eq_false _ ▸ set)] at reclaimed
        cases reclaimed
    · exact ⟨inv.free, inv.given⟩

omit [Inhabited V] in
/-- The saver never sets `m_destroy`. -/
theorem destroy_saver {act : SaverAct} {c : Block V} (next : block.saver time act = some c)
    (kept : block.object.m_destroy = false) : c.object.m_destroy = false := by
  cases act with
  | look =>
    obtain ⟨-, ⟨⟩⟩ := Option.ite_none_right_eq_some.1 next
    exact kept
  | mark =>
    simp only [Block.saver] at next
    split at next
    · obtain rfl := Option.some.inj next
      exact kept
    · obtain rfl := Option.some.inj next
      exact kept
    · cases next
  | send =>
    obtain ⟨-, ⟨⟩⟩ := Option.ite_none_right_eq_some.1 next
    exact kept
  | result m_Result =>
    obtain ⟨command, -, rfl⟩ := Option.map_eq_some_iff.1 next
    cases command <;> cases m_Result <;> first | exact kept | rfl

theorem Inv.step (inv : Inv m) (pending : Pending m a) (next : step m a = some n) : Inv n := by
  cases a with
  | tick =>
    obtain rfl := Option.some.inj next
    exact ⟨inv.free, inv.given⟩
  | newObject bCreate =>
    obtain ⟨-, ⟨⟩⟩ := Option.ite_none_right_eq_some.1 next
    unfold SharedMemory.NewObject
    split
    · exact ⟨inv.free, inv.given⟩
    · exact inv.take
  | turn =>
    obtain ⟨sweep, same, rfl⟩ := Option.map_eq_some_iff.1 next
    exact inv.clearDirtyBlock (pending sweep same)
  | lock b | unlock b | release b | modify b value =>
    obtain ⟨-, ⟨⟩⟩ := Option.ite_none_right_eq_some.1 next
    exact inv.update fun _ kept => kept
  | destroy b =>
    obtain ⟨-, ⟨⟩⟩ := Option.ite_none_right_eq_some.1 next
    exact inv.update fun mem _ => absurd mem pending
  | saver b act =>
    obtain ⟨block, worked, rfl⟩ := Option.map_eq_some_iff.1 next
    exact inv.update fun _ kept => destroy_saver worked kept

end Steps

/-- **A pending delete is not forgotten**: in every run whose steps meet the condition no block is
given out while its `m_destroy` is set. -/
theorem deletes_kept {pagesize clock : Nat} {as : List (Act V)} {m : SharedMemory V}
    (run : Runs step Pending (init pagesize clock) as m) : ∀ e ∈ m.given, e.2 = false :=
  (run.invariant Inv (.init pagesize clock) fun _ _ _ inv pending next => inv.step pending next).given

/-- The saver deletes the block before the next one is asked for. -/
theorem deletes_kept_reuse : ∃ m : SharedMemory Nat, Runs step Pending (init 1 100)
    [.newObject true, .destroy 0, .saver 0 .look, .saver 0 .mark, .saver 0 (.result true), .newObject true, .turn, .turn] m ∧
    m.given.length = 2 ∧ ∀ e ∈ m.given, e.2 = false := by
  have reached : ∃ m : SharedMemory Nat, Runs step Pending (init 1 100)
      [.newObject true, .destroy 0, .saver 0 .look, .saver 0 .mark, .saver 0 (.result true), .newObject true, .turn, .turn] m ∧
      m.given.length = 2 := by
    apply Runs.exists_of_decide
    decide
  obtain ⟨m, run, twice⟩ := reached
  exact ⟨m, run, twice, deletes_kept run⟩

/-- The next block is asked for before the saver comes round. -/
theorem delete_forgotten : ∃ m : SharedMemory Nat, Runs step (fun _ _ => True) (init 1 100)
    [.newObject true, .destroy 0, .newObject true, .turn, .turn] m ∧ (0, true) ∈ m.given := by
  apply Runs.exists_of_decide
  decide

end SharedMemory

end GameServer.LibGame

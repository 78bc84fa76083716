import GameServer.Lib.Bytes
import GameServer.Lib.Run

/-!
# Blocks of shared memory and their saver

The game process modifies a `SharedObject` between `Lock` and `Unlock`; another process, the
saver, writes it to the database when `NeedHandle` says that it was modified after the last save.
The saver's `handleSharedObject` is cut where the game may come in between: it looks at the flags,
marks the block, and only then reads the value for the command it sends; the answer comes later.

Both times are in seconds. An `Unlock` in the second of the save, after the saver has read the
value, is not seen (`update_lost`); with no such `Unlock` the database has the value of the block
whenever the block is at rest (`saved_at_rest`).
-/

namespace GameServer.LibGame

open GameServer.Lib

structure SharedObject where
  m_lock : Bool
  m_used : Bool
  m_create : Bool
  m_destroy : Bool
  m_handling : Bool
  m_modifyTime : Int
  m_updateTime : Int
  deriving DecidableEq, Repr

namespace SharedObject

/-- The constructor. -/
def init : SharedObject := ⟨false, false, false, false, false, 0, 0⟩

variable (o : SharedObject)

def Lock : SharedObject := { o with m_lock := true }

/-- `time` is `time(NULL)`. -/
def Unlock (time : Nat) : SharedObject := { o with m_modifyTime := toInt32 time, m_lock := false }

def Release : SharedObject := { o with m_used := false }

def Destroy : SharedObject := { o with m_used := false, m_destroy := true }

def IsHandling : Bool := o.m_handling

def NeedHandle : Bool := o.m_modifyTime > o.m_updateTime

def handleCreate (m_Result : Bool) : SharedObject :=
  if m_Result then { o with m_create := false, m_handling := false }
  else { o with m_updateTime := toInt32 (o.m_modifyTime - 1), m_handling := false }

def handleUpdate (m_Result : Bool) : SharedObject :=
  if m_Result then { o with m_handling := false }
  else { o with m_updateTime := toInt32 (o.m_modifyTime - 1), m_handling := false }

def handleDestroy (m_Result : Bool) : SharedObject :=
  if m_Result then { o with m_destroy := false, m_used := false, m_handling := false }
  else { o with m_handling := false }

end SharedObject

/-- Where the saver's `handleSharedObject` is with the block. -/
inductive Phase where
  | idle
  /-- The block needs handling; it is not marked yet. -/
  | saves
  /-- The block is marked; the value is not read yet. -/
  | sends
  /-- The block is to be deleted; it is not marked yet. -/
  | destroys
  deriving DecidableEq, Repr

/-- The command that was sent, with the value it writes. -/
inductive Command (V : Type) where
  | create (value : V)
  | update (value : V)
  | destroy
  deriving DecidableEq, Repr

/-- The value that the command writes, if it writes one. -/
def Command.value {V : Type} : Command V → Option V
  | create value | update value => some value
  | destroy => none

/-- A block, what the saver is doing with it, and its row in the database. -/
structure Block (V : Type) where
  object : SharedObject
  value : V
  phase : Phase
  command : Option (Command V)
  row : Option V
  /-- The result of the last save. -/
  saved : Option Bool
  deriving DecidableEq, Repr

inductive SaverAct where
  | look
  | mark
  | send
  | result (m_Result : Bool)
  deriving DecidableEq, Repr

section Saver

variable {V : Type}

/-- The tests of `handleSharedObject`. -/
def SharedObject.look (o : SharedObject) : Phase :=
  if o.m_lock then .idle
  else if o.m_handling then .idle
  else if o.NeedHandle then .saves
  else if o.m_destroy then .destroys
  else .idle

/-- The database has answered the command. -/
def Block.answer (b : Block V) (m_Result : Bool) : Command V → Block V
  | .create value =>
    { b with
      object := b.object.handleCreate m_Result
      command := none
      row := if m_Result then some value else b.row
      saved := some m_Result }
  | .update value =>
    { b with
      object := b.object.handleUpdate m_Result
      command := none
      row := if m_Result then some value else b.row
      saved := some m_Result }
  | .destroy =>
    { b with
      object := b.object.handleDestroy m_Result
      command := none
      row := if m_Result then none else b.row }

/-- The next part of the saver's work on the block. -/
def Block.saver (b : Block V) (time : Nat) : SaverAct → Option (Block V)
  | .look => if b.phase = .idle then some { b with phase := b.object.look } else none
  | .mark =>
    match b.phase with
    | .saves =>
      some { b with object := { b.object with m_handling := true, m_updateTime := toInt32 time }, phase := .sends }
    | .destroys =>
      some { b with object := { b.object with m_handling := true }, command := some .destroy, phase := .idle }
    | _ => none
  | .send =>
    if b.phase = .sends then
      some { b with command := some (if b.object.m_create then .create b.value else .update b.value), phase := .idle }
    else none
  | .result m_Result => b.command.map (b.answer m_Result)

end Saver

namespace WriteBehind

variable {V : Type}

structure State (V : Type) where
  block : Block V
  clock : Nat
  deriving DecidableEq, Repr

/-- A block from `NewObject`, at any time and with any row in the database. -/
def State.init (bCreate : Bool) (value : V) (row : Option V) (clock : Nat) : State V :=
  ⟨⟨{ SharedObject.init with m_used := true, m_create := bCreate }, value, .idle, none, row, none⟩, clock⟩

inductive Act (V : Type) where
  /-- A second passes. -/
  | tick
  | lock
  | modify (value : V)
  | unlock
  | saver (act : SaverAct)
  deriving DecidableEq, Repr

/-- The game modifies a block while it is locked. -/
def step (s : State V) : Act V → Option (State V)
  | .tick => some { s with clock := s.clock + 1 }
  | .lock => some { s with block.object := s.block.object.Lock }
  | .modify value => if s.block.object.m_lock then some { s with block.value := value } else none
  | .unlock => some { s with block.object := s.block.object.Unlock s.clock }
  | .saver act => (s.block.saver s.clock act).map fun block => { s with block := block }

/-- An `Unlock` comes after the second of the last save, or before the saver reads the value. -/
def Noticed (s : State V) : Act V → Prop
  | .unlock => s.block.object.m_updateTime < toInt32 s.clock ∨ s.block.phase = .sends
  | _ => True

instance (s : State V) : (a : Act V) → Decidable (Noticed s a)
  | .unlock => inferInstanceAs (Decidable (_ ∨ _))
  | .tick | .lock | .modify _ | .saver _ => inferInstanceAs (Decidable True)

/-- Not locked, not handled, no need to be handled, and the last save went well. -/
structure Quiescent (b : Block V) : Prop where
  unlocked : b.object.m_lock = false
  unhandled : b.object.IsHandling = false
  clean : b.object.NeedHandle = false
  saved : b.saved = some true

/-- The value on its way to the database, or there already, is that of the block, as long as the
block is not modified again. -/
structure Inv (b : Block V) : Prop where
  kept : b.object.m_destroy = false
  saving : b.phase ≠ .destroys ∧ b.command ≠ some .destroy
  handled : b.command.isSome → b.object.m_handling = true
  saves : b.phase = .saves → b.object.NeedHandle = true ∧ b.command = none
  sends : b.phase = .sends → b.object.m_handling = true ∧ b.command = none
  sent : b.object.m_lock = false → b.object.NeedHandle = false → b.phase = .idle →
    ∀ command, b.command = some command → command.value = some b.value
  written : b.object.m_lock = false → b.object.NeedHandle = false → b.phase = .idle →
    b.command = none → b.saved = some true → b.row = some b.value

section Steps

variable {b c : Block V} {s t : State V} {time : Nat} {a : Act V} {command : Command V} {m_Result : Bool}

theorem Inv.init (bCreate : Bool) (value : V) (row : Option V) (clock : Nat) : Inv (State.init bCreate value row clock).block where
  kept := rfl
  saving := ⟨nofun, nofun⟩
  handled := nofun
  saves := nofun
  sends := nofun
  sent := nofun
  written := nofun

theorem Inv.lock (inv : Inv b) : Inv { b with object := b.object.Lock } where
  kept := inv.kept
  saving := inv.saving
  handled := inv.handled
  saves := inv.saves
  sends := inv.sends
  sent := nofun
  written := nofun

theorem Inv.modify (inv : Inv b) (locked : b.object.m_lock = true) (value : V) : Inv { b with value := value } where
  kept := inv.kept
  saving := inv.saving
  handled := inv.handled
  saves := inv.saves
  sends := inv.sends
  sent unlocked := by
    rw [locked] at unlocked
    cases unlocked
  written unlocked := by
    rw [locked] at unlocked
    cases unlocked

/-- An `Unlock` that is noticed leaves a block that needs handling, or is about to be read. -/
theorem Inv.unlock (inv : Inv b) (noticed : b.object.m_updateTime < toInt32 time ∨ b.phase = .sends) :
    Inv { b with object := b.object.Unlock time } := by
  have needs : b.phase ≠ .sends → (b.object.Unlock time).NeedHandle = true := by
    intro phase
    simp only [SharedObject.NeedHandle, SharedObject.Unlock, gt_iff_lt, decide_eq_true_eq]
    exact noticed.resolve_right phase
  have dirty : b.phase = .idle → (b.object.Unlock time).NeedHandle ≠ false := by
    intro idle clean
    rw [needs (by rw [idle]; exact nofun)] at clean
    cases clean
  exact {
    kept := inv.kept
    saving := inv.saving
    handled := inv.handled
    saves := fun saves => ⟨needs (by rw [show b.phase = .saves from saves]; exact nofun), (inv.saves saves).2⟩
    sends := inv.sends
    sent := fun _ clean idle => absurd clean (dirty idle)
    written := fun _ clean idle => absurd clean (dirty idle) }

theorem look_of_kept (o : SharedObject) (kept : o.m_destroy = false) :
    o.look = .idle ∨ (o.look = .saves ∧ o.m_handling = false ∧ o.NeedHandle = true) := by
  unfold SharedObject.look
  split_ifs with locked handling needs destroy
  · exact .inl rfl
  · exact .inl rfl
  · exact .inr ⟨rfl, Bool.not_eq_true _ ▸ handling, needs⟩
  · rw [kept] at destroy
    cases destroy
  · exact .inl rfl

theorem Inv.look (inv : Inv b) (idle : b.phase = .idle) : Inv { b with phase := b.object.look } := by
  rcases look_of_kept b.object inv.kept with same | ⟨same, handling, needs⟩
  · rw [same, ← idle]
    exact inv
  · have none : b.command = none := by
      cases command : b.command with
      | none => rfl
      | some _ =>
        have handled := inv.handled (by rw [command]; rfl)
        rw [handling] at handled
        cases handled
    rw [same]
    exact ⟨inv.kept, ⟨nofun, inv.saving.2⟩, inv.handled, fun _ => ⟨needs, none⟩, nofun, nofun, nofun⟩

theorem Inv.answer (inv : Inv b) (same : b.command = some command) : Inv (b.answer m_Result command) := by
  have saves : b.phase ≠ .saves := fun phase => by
    rw [(inv.saves phase).2] at same
    cases same
  have sends : b.phase ≠ .sends := fun phase => by
    rw [(inv.sends phase).2] at same
    cases same
  cases command with
  | destroy => exact absurd same inv.saving.2
  | create value | update value =>
    cases m_Result with
    | false =>
      exact ⟨inv.kept, ⟨inv.saving.1, nofun⟩, nofun, fun phase => absurd phase saves, fun phase => absurd phase sends, nofun, nofun⟩
    | true =>
      exact ⟨inv.kept, ⟨inv.saving.1, nofun⟩, nofun, fun phase => absurd phase saves, fun phase => absurd phase sends, nofun,
        fun unlocked clean idle _ _ => inv.sent unlocked clean idle _ same⟩

theorem Inv.saver {act : SaverAct} (inv : Inv b) (next : b.saver time act = some c) : Inv c := by
  cases act with
  | look =>
    obtain ⟨idle, ⟨⟩⟩ := Option.ite_none_right_eq_some.1 next
    exact inv.look idle
  | mark =>
    cases phase : b.phase with
    | saves =>
      simp only [Block.saver, phase] at next
      obtain rfl := Option.some.inj next
      have none := (inv.saves phase).2
      exact ⟨inv.kept, ⟨nofun, inv.saving.2⟩, fun _ => rfl, nofun, fun _ => ⟨rfl, none⟩, nofun, nofun⟩
    | destroys => exact absurd phase inv.saving.1
    | idle | sends =>
      simp only [Block.saver, phase] at next
      cases next
  | send =>
    obtain ⟨phase, ⟨⟩⟩ := Option.ite_none_right_eq_some.1 next
    have handling := (inv.sends phase).1
    refine ⟨inv.kept, ⟨nofun, ?_⟩, fun _ => handling, nofun, nofun, fun _ _ _ command same => ?_, nofun⟩
    · show some _ ≠ _
      split <;> simp
    · obtain rfl := Option.some.inj same
      show Command.value (if _ then _ else _) = some b.value
      split <;> rfl
  | result m_Result =>
    obtain ⟨command, same, rfl⟩ := Option.map_eq_some_iff.1 next
    exact inv.answer same

theorem Inv.step (inv : Inv s.block) (noticed : Noticed s a) (next : step s a = some t) : Inv t.block := by
  cases a with
  | tick =>
    obtain rfl := Option.some.inj next
    exact inv
  | lock =>
    obtain rfl := Option.some.inj next
    exact inv.lock
  | modify value =>
    obtain ⟨locked, ⟨⟩⟩ := Option.ite_none_right_eq_some.1 next
    exact inv.modify locked value
  | unlock =>
    obtain rfl := Option.some.inj next
    exact inv.unlock noticed
  | saver act =>
    obtain ⟨block, worked, rfl⟩ := Option.map_eq_some_iff.1 next
    exact inv.saver worked

/-- At rest nothing is under way. -/
theorem Inv.row_eq (inv : Inv b) (quiet : Quiescent b) : b.row = some b.value := by
  obtain ⟨unlocked, unhandled, clean, saved⟩ := quiet
  have idle : b.phase = .idle := by
    cases phase : b.phase with
    | idle => rfl
    | saves =>
      rw [(inv.saves phase).1] at clean
      cases clean
    | sends =>
      rw [SharedObject.IsHandling, (inv.sends phase).1] at unhandled
      cases unhandled
    | destroys => exact absurd phase inv.saving.1
  have none : b.command = none := by
    cases command : b.command with
    | none => rfl
    | some _ =>
      rw [SharedObject.IsHandling, inv.handled (by rw [command]; rfl)] at unhandled
      cases unhandled
  exact inv.written unlocked clean idle none saved

end Steps

/-- **No update is lost**: in every run whose `Unlock`s are noticed the database has the value of the
block whenever the block is at rest. -/
theorem saved_at_rest {bCreate : Bool} {value : V} {row : Option V} {clock : Nat} {as : List (Act V)} {s : State V}
    (run : Runs step Noticed (.init bCreate value row clock) as s) (quiet : Quiescent s.block) :
    s.block.row = some s.block.value := by
  have inv := run.invariant (fun s => Inv s.block) (.init bCreate value row clock) fun _ _ _ inv noticed next => inv.step noticed next
  exact inv.row_eq quiet

/-- One save from beginning to end. -/
def save : List (Act Nat) :=
  [.lock, .modify 1, .unlock, .saver .look, .saver .mark, .saver .send, .saver (.result true)]

instance (b : Block V) : Decidable (Quiescent b) :=
  decidable_of_iff (b.object.m_lock = false ∧ b.object.IsHandling = false ∧ b.object.NeedHandle = false ∧ b.saved = some true)
    ⟨fun ⟨unlocked, unhandled, clean, saved⟩ => ⟨unlocked, unhandled, clean, saved⟩,
      fun ⟨unlocked, unhandled, clean, saved⟩ => ⟨unlocked, unhandled, clean, saved⟩⟩

theorem saved_at_rest_twice : ∃ s : State Nat, Runs step Noticed (.init true 0 none 100) (save ++ .tick :: save) s ∧
    Quiescent s.block ∧ s.block.row = some s.block.value := by
  have reached : ∃ s : State Nat, Runs step Noticed (.init true 0 none 100) (save ++ .tick :: save) s ∧ Quiescent s.block := by
    apply Runs.exists_of_decide
    decide
  obtain ⟨s, run, quiet⟩ := reached
  exact ⟨s, run, quiet, saved_at_rest run quiet⟩

/-- The block is modified again in the second of the save. -/
theorem update_lost : ∃ s : State Nat, Runs step (fun _ _ => True) (.init true 0 none 100) (save ++ [.lock, .modify 2, .unlock]) s ∧
    Quiescent s.block ∧ s.block.row = some 1 ∧ s.block.value = 2 := by
  apply Runs.exists_of_decide
  decide

end WriteBehind

end GameServer.LibGame

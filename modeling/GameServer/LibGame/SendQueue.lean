import GameServer.Lib.Run

/-!
# The send queue of libgame's `NetConnect`

`NetConnect::Send` pushes a pack under `m_SendMutex` and then calls `doSend`;
`handWrite` pops the head under the same mutex and then calls `doSend`; `doSend`
takes the mutex again, and leaves it before it issues its `async_write`. The
model has one action for each of these sections, so that any number of threads
may interleave them: `send` and `handWrite` leave a `doSend` call behind that
some later `doSend` action runs, and a `doSend` that wins the flag leaves a
write behind that some later `asyncWrite` action issues.

`Inv` ties the flag `m_bSending`, the write on its way and the queue's head;
`accepted` and `written` are history, the packs of the accepted `Send`s and
those whose writes completed.
-/

namespace GameServer.LibGame.SendQueue

open GameServer.Lib

/-- The arguments a `NetPack` is built from. -/
structure NetPack where
  messageid : BitVec 32
  data : List UInt8
  roleid : BitVec 32
  deriving DecidableEq, Repr

/-- `NetConnect` as far as sending goes, with the sections under way. -/
structure NetConnect where
  sendPackCollect : List NetPack
  bSending : Bool
  sendPack : Option NetPack
  bDisconnect : Bool
  /-- Calls of `doSend` that have not reached their critical section. -/
  callers : Nat
  /-- Calls of `doSend` that have left their section with a write to issue. -/
  writers : Nat
  /-- The `async_write`s issued and not completed. -/
  outstanding : List NetPack
  accepted : List NetPack
  written : List NetPack
  deriving DecidableEq, Repr

def NetConnect.init : NetConnect :=
  ⟨[], false, none, false, 0, 0, [], [], []⟩

inductive Act where
  /-- `Send` up to its unlock; a null `pdata` is `none`. -/
  | send (messageid : BitVec 32) (pdata : Option (List UInt8)) (roleid : BitVec 32)
  /-- The critical section of one of the pending `doSend` calls. -/
  | doSend
  /-- The `async_write` of a `doSend` that took a pack. -/
  | asyncWrite
  /-- `handWrite` without error, for the `i`-th outstanding write, up to its unlock. -/
  | handWrite (i : Nat)
  | close
  deriving DecidableEq, Repr

/-- `NetConnect::Send`: refused for null or empty data and on a closed connection. -/
def send (c : NetConnect) (messageid : BitVec 32) (pdata : Option (List UInt8)) (roleid : BitVec 32) :
    NetConnect :=
  match pdata with
  | none => c
  | some data =>
    if data.length = 0 then c
    else if c.bDisconnect then c
    else
      let pPack : NetPack := ⟨messageid, data, roleid⟩
      { c with
        sendPackCollect := c.sendPackCollect ++ [pPack]
        callers := c.callers + 1
        accepted := c.accepted ++ [pPack] }

/-- `NetConnect::doSend`, its critical section. -/
def doSend (c : NetConnect) : NetConnect :=
  match c.sendPackCollect with
  | [] => { c with bSending := false }
  | pack :: _ =>
    if c.bSending then c
    else if c.bDisconnect then c
    else { c with bSending := true, sendPack := some pack, writers := c.writers + 1 }

/-- `NetConnect::handWrite` without error, its critical section. -/
def handWrite (c : NetConnect) : NetConnect :=
  { c with
    sendPackCollect := c.sendPackCollect.drop 1
    bSending := false
    callers := c.callers + 1 }

def step (c : NetConnect) : Act → Option NetConnect
  | .send messageid pdata roleid => some (send c messageid pdata roleid)
  | .doSend => if c.callers = 0 then none else some (doSend { c with callers := c.callers - 1 })
  | .asyncWrite =>
    if c.writers = 0 then none
    else c.sendPack.map fun pack =>
      { c with writers := c.writers - 1, outstanding := c.outstanding ++ [pack] }
  | .handWrite i =>
    (c.outstanding[i]?).map fun pack =>
      handWrite { c with outstanding := c.outstanding.eraseIdx i, written := c.written ++ [pack] }
  | .close => some { c with bDisconnect := true }

/-- The connection stays open. -/
def StaysOpen (_ : NetConnect) (a : Act) : Prop := a ≠ .close

instance (c : NetConnect) (a : Act) : Decidable (StaysOpen c a) := inferInstanceAs (Decidable (a ≠ .close))

/-- The flag stands for exactly one write on its way, of the queue's head. -/
structure Inv (c : NetConnect) : Prop where
  open' : c.bDisconnect = false
  idle : c.bSending = false → c.writers = 0 ∧ c.outstanding = []
  busy : c.bSending = true → ∃ pack rest, c.sendPackCollect = pack :: rest ∧ c.sendPack = some pack ∧
    ((c.writers = 1 ∧ c.outstanding = []) ∨ (c.writers = 0 ∧ c.outstanding = [pack]))
  conserved : c.accepted = c.written ++ c.sendPackCollect
  /-- A waiting pack is under way or some `doSend` is still to look at the queue. -/
  served : c.sendPackCollect ≠ [] → c.bSending = true ∨ 0 < c.callers

theorem Inv.init : Inv NetConnect.init := by
  constructor <;> simp [NetConnect.init]

theorem Inv.send {c : NetConnect} (inv : Inv c) (messageid : BitVec 32) (pdata : Option (List UInt8))
    (roleid : BitVec 32) : Inv (send c messageid pdata roleid) := by
  unfold SendQueue.send
  split
  · exact inv
  · split
    · exact inv
    · rw [if_neg (by simp [inv.open'])]
      refine ⟨inv.open', inv.idle, ?_, ?_, fun _ => Or.inr (Nat.succ_pos _)⟩
      · intro sending
        obtain ⟨pack, rest, queue, head, way⟩ := inv.busy sending
        exact ⟨pack, rest ++ [_], by simp only [queue]; rfl, head, way⟩
      · simp only [inv.conserved, List.append_assoc]

theorem Inv.doSend {c : NetConnect} (inv : Inv c) :
    Inv (doSend { c with callers := c.callers - 1 }) := by
  unfold SendQueue.doSend
  split
  · next queue =>
    have quiet : c.bSending = false := by
      by_contra sending
      obtain ⟨_, _, queue', _⟩ := inv.busy (by simpa using sending)
      rw [queue] at queue'; cases queue'
    exact ⟨inv.open', fun _ => inv.idle quiet, nofun, inv.conserved, fun waiting => absurd queue waiting⟩
  · next pack rest queue =>
    split
    · next sending => exact ⟨inv.open', inv.idle, inv.busy, inv.conserved, fun _ => Or.inl sending⟩
    · next quiet =>
      rw [if_neg (by simp [inv.open'])]
      obtain ⟨noWriter, noWrite⟩ := inv.idle (by simpa using quiet)
      refine ⟨inv.open', nofun, fun _ => ⟨pack, rest, queue, rfl, Or.inl ⟨?_, noWrite⟩⟩, inv.conserved,
        fun _ => Or.inl rfl⟩
      simp only [noWriter]

theorem Inv.asyncWrite {c : NetConnect} {pack : NetPack} (inv : Inv c) (writer : c.writers ≠ 0)
    (taken : c.sendPack = some pack) :
    Inv { c with writers := c.writers - 1, outstanding := c.outstanding ++ [pack] } := by
  have sending : c.bSending = true := by
    by_contra quiet
    exact writer (inv.idle (by simpa using quiet)).1
  obtain ⟨head, rest, queue, head', way⟩ := inv.busy sending
  rcases way with ⟨one, none'⟩ | ⟨zero, _⟩
  · rw [taken] at head'
    cases head'
    refine ⟨inv.open', ?_, fun _ => ⟨pack, rest, queue, taken, Or.inr ⟨?_, ?_⟩⟩, inv.conserved, inv.served⟩
    · intro quiet; rw [sending] at quiet; cases quiet
    · simp only [one]
    · simp only [none', List.nil_append]
  · exact absurd zero writer

theorem Inv.handWrite {c : NetConnect} {pack : NetPack} {i : Nat} (inv : Inv c)
    (done : c.outstanding[i]? = some pack) :
    Inv (handWrite { c with outstanding := c.outstanding.eraseIdx i, written := c.written ++ [pack] }) := by
  have sending : c.bSending = true := by
    by_contra quiet
    rw [(inv.idle (by simpa using quiet)).2] at done
    simp at done
  obtain ⟨head, rest, queue, _, way⟩ := inv.busy sending
  rcases way with ⟨_, none'⟩ | ⟨zero, one⟩
  · rw [none'] at done; simp at done
  · rw [one] at done
    obtain ⟨rfl, rfl⟩ : i = 0 ∧ head = pack := by
      cases i with
      | zero => exact ⟨rfl, by simpa using done⟩
      | succ i => simp at done
    refine ⟨inv.open', fun _ => ⟨zero, ?_⟩, nofun, ?_, fun _ => Or.inr (Nat.succ_pos _)⟩
    · simp only [SendQueue.handWrite, one, List.eraseIdx_zero, List.tail_cons]
    · simp only [SendQueue.handWrite, inv.conserved, queue, List.drop_succ_cons, List.drop_zero,
        List.append_assoc, List.singleton_append]

/-- Every section of an open connection keeps the invariant. -/
theorem Inv.step {c d : NetConnect} {a : Act} (inv : Inv c) (stays : StaysOpen c a)
    (next : step c a = some d) : Inv d := by
  cases a with
  | send messageid pdata roleid => cases next; exact inv.send messageid pdata roleid
  | doSend =>
    simp only [SendQueue.step] at next
    split at next
    · cases next
    · cases next; exact inv.doSend
  | asyncWrite =>
    simp only [SendQueue.step] at next
    split at next
    · cases next
    · next writer =>
      obtain ⟨pack, taken, rfl⟩ := Option.map_eq_some_iff.1 next
      exact inv.asyncWrite writer taken
  | handWrite i =>
    obtain ⟨pack, done, rfl⟩ := Option.map_eq_some_iff.1 next
    exact inv.handWrite done
  | close => exact absurd rfl stays

/-- **The send queue.** In every interleaving on an open connection at most one
write is outstanding, it writes the queue's head, and what was accepted is what
was written followed by the queue. -/
theorem sendQueue_fifo {as : List Act} {c : NetConnect}
    (run : Runs step StaysOpen NetConnect.init as c) :
    c.outstanding.length ≤ 1 ∧
      (∀ pack ∈ c.outstanding, c.sendPackCollect.head? = some pack) ∧
      c.accepted = c.written ++ c.sendPackCollect := by
  have inv : Inv c := run.invariant Inv Inv.init fun _ _ _ inv stays next => inv.step stays next
  cases sending : c.bSending with
  | false =>
    have none' := (inv.idle sending).2
    exact ⟨by simp [none'], by simp [none'], inv.conserved⟩
  | true =>
    obtain ⟨head, rest, queue, _, ⟨_, none'⟩ | ⟨_, one⟩⟩ := inv.busy sending
    · exact ⟨by simp [none'], by simp [none'], inv.conserved⟩
    · exact ⟨by simp [one], by simp [one, queue], inv.conserved⟩

/-- Two threads send, the second while the first pack is being written. -/
theorem sendQueue_fifo_two : ∃ c : NetConnect,
    (c.outstanding = [⟨2, [8], 0⟩] ∧ c.written = [⟨1, [7], 0⟩]) ∧ c.outstanding.length ≤ 1 ∧
      (∀ pack ∈ c.outstanding, c.sendPackCollect.head? = some pack) ∧
      c.accepted = c.written ++ c.sendPackCollect := by
  let as : List Act := [.send 1 (some [7]) 0, .doSend, .send 2 (some [8]) 0, .asyncWrite, .doSend,
    .handWrite 0, .doSend, .asyncWrite]
  obtain ⟨c, run, now⟩ : ∃ c, Runs step StaysOpen NetConnect.init as c ∧
      c.outstanding = [⟨2, [8], 0⟩] ∧ c.written = [⟨1, [7], 0⟩] := by
    apply Runs.exists_of_decide
    decide
  exact ⟨c, now, sendQueue_fifo run⟩

end GameServer.LibGame.SendQueue

import Mathlib.Data.List.Basic

/-!
# Mailboxes

A queue that one side pushes into and the other empties in batches: `take` moves the queue
into the batch once the last batch is used up, `deliver` takes the next item of the batch.
Whatever the order of these steps, what was delivered, followed by what waits in the batch and
in the queue, is what was pushed (`Mailbox.all`).
-/

namespace GameServer.Lib

structure Mailbox (α : Type) where
  done : List α
  batch : List α
  queue : List α

namespace Mailbox

variable {α : Type} (m : Mailbox α) {x : α} {rest : List α}

def push (x : α) : Mailbox α := { m with queue := m.queue ++ [x] }

def take : Mailbox α := { m with batch := m.queue, queue := [] }

def deliver (x : α) (rest : List α) : Mailbox α := { m with done := m.done ++ [x], batch := rest }

/-- Everything that was pushed, in order. -/
def all : List α := m.done ++ (m.batch ++ m.queue)

@[simp] theorem all_push : (m.push x).all = m.all ++ [x] := by
  simp [all, push, List.append_assoc]

theorem all_take (used : m.batch = []) : m.take.all = m.all := by
  simp [all, take, used]

theorem all_deliver (next : m.batch = x :: rest) : (m.deliver x rest).all = m.all := by
  simp [all, deliver, next]

end Mailbox

end GameServer.Lib

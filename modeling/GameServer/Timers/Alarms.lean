import Mathlib.Data.BitVec
import Mathlib.Logic.Function.Basic

/-!
# What a timer queue is for

An alarm clock: every alarm that is set has one due tick, an alarm is taken out at
its due tick, and the clock does not pass a tick while an alarm is due at it. Ticks
are counted modulo `2 ^ 32`.
-/

namespace GameServer.Timers

variable {H : Type} [DecidableEq H]

inductive Event (H : Type) where
  | armed (h : H) (expires : BitVec 32)
  | disarmed (h : H)
  | taken (h : H)
  | ticked
  deriving DecidableEq, Repr

/-- The tick to come and the due ticks of the alarms that are set. -/
@[ext]
structure Alarms (H : Type) where
  now : BitVec 32
  due : H → Option (BitVec 32)

namespace Alarms

/-- No alarm is set. -/
def silent (now : BitVec 32) : Alarms H := ⟨now, fun _ => none⟩

def set (a : Alarms H) (h : H) (due : Option (BitVec 32)) : Alarms H := { a with due := Function.update a.due h due }

inductive Step : Alarms H → Event H → Alarms H → Prop where
  | armed {a : Alarms H} {h : H} (expires : BitVec 32) : a.due h = none →
      Step a (.armed h expires) (a.set h (some expires))
  | disarmed {a : Alarms H} {h : H} {expires : BitVec 32} : a.due h = some expires → Step a (.disarmed h) (a.set h none)
  | taken {a : Alarms H} {h : H} : a.due h = some a.now → Step a (.taken h) (a.set h none)
  | ticked {a : Alarms H} : (∀ h, a.due h ≠ some a.now) → Step a .ticked { a with now := a.now + 1 }

/-- The events of `log` in order lead from `a` to `b`. -/
inductive Follows (a : Alarms H) : List (Event H) → Alarms H → Prop where
  | nil : Follows a [] a
  | snoc {log : List (Event H)} {e : Event H} {b c : Alarms H} :
      Follows a log b → Step b e c → Follows a (log ++ [e]) c

end Alarms

end GameServer.Timers

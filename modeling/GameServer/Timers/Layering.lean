import GameServer.Lib.Run
import GameServer.Timers.Alarms

/-!
# The layered timer wheel

`CTimerLayering` in exact mode. Five vectors of lists hold the pending timers:
`tv1` has one slot for each of the next 256 ticks, each later vector 64 slots of
256, 2^14, 2^20 and 2^26 ticks. A list is the list of the timers linked in it, in
order; `linked` stands for `entry.next != NULL`.

`__ExactUpdate` runs the reactor's callback in the middle of its loops, and a
callback may call `AddTimer`, `AdjustTimer` and `RemoveTimer`. The model cuts it
there: `phase` is the place in the two loops, `update`, `loop`, `take` and `ret`
are the pieces between. The clock is read by `update` and by `ret`, which take
the reading as an argument.

`log` is history: what was armed, disarmed, taken out, and each tick finished.
-/

namespace GameServer.Timers.Layering

/-- `HTIMER`: the address of an `STimerInfo` in the pool. -/
abbrev Handle := Nat

structure STimerInfo where
  /-- `entry.next != NULL`. -/
  linked : Bool
  expires : BitVec 32
  elapse : BitVec 32
  count : BitVec 32
  data : Nat
  deriving DecidableEq, Repr

inductive Level where
  | tv1
  | tv2
  | tv3
  | tv4
  | tv5
  deriving DecidableEq, Repr

def TVR_BITS : Nat := 8
def TVN_BITS : Nat := 6

/-- The low bit of a slot's number within a tick. -/
def Level.shift : Level → Nat
  | .tv1 => 0
  | .tv2 => TVR_BITS
  | .tv3 => TVR_BITS + TVN_BITS
  | .tv4 => TVR_BITS + 2 * TVN_BITS
  | .tv5 => TVR_BITS + 3 * TVN_BITS

/-- `TVR_MASK` or `TVN_MASK`. -/
def Level.mask : Level → BitVec 32
  | .tv1 => 255
  | _ => 63

/-- The slot of a tick in a vector: `tick & TVR_MASK`, and `INDEX(N)` for `last_tick_`. -/
def Level.index (l : Level) (tick : BitVec 32) : Nat := ((tick >>> l.shift) &&& l.mask).toNat

/-- Where `__AddTimer` puts a timer. -/
def slotFor (last_tick expires : BitVec 32) : Level × Nat :=
  let idx := expires - last_tick
  if idx.toNat < 2 ^ TVR_BITS then (.tv1, Level.tv1.index expires)
  else if idx.toNat < 2 ^ (TVR_BITS + TVN_BITS) then (.tv2, Level.tv2.index expires)
  else if idx.toNat < 2 ^ (TVR_BITS + 2 * TVN_BITS) then (.tv3, Level.tv3.index expires)
  else if idx.toNat < 2 ^ (TVR_BITS + 3 * TVN_BITS) then (.tv4, Level.tv4.index expires)
  else if idx.toInt < 0 then (.tv1, Level.tv1.index last_tick)
  else
    let expires := if idx.toNat > 0xffffffff then 0xffffffff + last_tick else expires
    (.tv5, Level.tv5.index expires)

/-- The place in `__ExactUpdate`: outside it, at the head of the outer loop, at the head
of the inner loop, or in the callback of a timer. -/
inductive Phase where
  | idle
  | ticking (tick : BitVec 32)
  | working (tick : BitVec 32)
  | calling (tick : BitVec 32) (h : Handle)
  deriving DecidableEq, Repr

structure CTimerLayering where
  last_tick : BitVec 32
  pool : Handle → Option STimerInfo
  vec : Level → Nat → List Handle
  work_list : List Handle
  phase : Phase
  log : List (Event Handle)

namespace CTimerLayering

/-- `Init`: all slots empty, the clock's reading for a start. -/
def init (tick : BitVec 32) : CTimerLayering where
  last_tick := tick
  pool _ := none
  vec _ _ := []
  work_list := []
  phase := .idle
  log := []

def record (c : CTimerLayering) (e : Event Handle) : CTimerLayering := { c with log := c.log ++ [e] }

/-- Write `info` to the memory at `h`, or give it back to the pool. -/
def store (c : CTimerLayering) (h : Handle) (info : Option STimerInfo) : CTimerLayering :=
  { c with pool := Function.update c.pool h info }

/-- The lists with another list in one slot. -/
def setVec (c : CTimerLayering) (l : Level) (i : Nat) (hs : List Handle) : CTimerLayering :=
  { c with vec := fun l' i' => if l' = l ∧ i' = i then hs else c.vec l' i' }

/-- `__AddTimer`: link the timer at the tail of its slot. -/
def addTimerInfo (c : CTimerLayering) (h : Handle) (info : STimerInfo) : CTimerLayering :=
  let slot := slotFor c.last_tick info.expires
  (c.setVec slot.1 slot.2 (c.vec slot.1 slot.2 ++ [h])).store h (some { info with linked := true })

/-- `__DetachTimer` with `bClearPending`: take the timer out of the list it is in. -/
def detachTimer (c : CTimerLayering) (h : Handle) (info : STimerInfo) : CTimerLayering :=
  { c.store h (some { info with linked := false }) with
    vec := fun l i => (c.vec l i).filter (· ≠ h)
    work_list := c.work_list.filter (· ≠ h) }

/-- The loop of `__Cascade` over the timers taken out. -/
def cascadeLoop : List Handle → CTimerLayering → CTimerLayering
  | [], c => c
  | h :: hs, c => cascadeLoop hs (match c.pool h with
    | none => c
    | some info => c.addTimerInfo h info)

/-- `__Cascade`: empty a slot and add its timers again. -/
def cascade (c : CTimerLayering) (l : Level) (index : Nat) : CTimerLayering :=
  cascadeLoop (c.vec l index) (c.setVec l index [])

/-- The chain of cascades at the head of a tick; each goes on when its index is zero. -/
def cascades (c : CTimerLayering) : CTimerLayering :=
  if Level.tv1.index c.last_tick ≠ 0 then c
  else
    let c := c.cascade .tv2 (Level.tv2.index c.last_tick)
    if Level.tv2.index c.last_tick ≠ 0 then c
    else
      let c := c.cascade .tv3 (Level.tv3.index c.last_tick)
      if Level.tv3.index c.last_tick ≠ 0 then c
      else
        let c := c.cascade .tv4 (Level.tv4.index c.last_tick)
        if Level.tv4.index c.last_tick ≠ 0 then c
        else c.cascade .tv5 (Level.tv5.index c.last_tick)

/-- `AddTimer`; `room` is the chunk `pool_.construct` returns, `none` when it has no room. -/
def addTimer (c : CTimerLayering) (elapse count : BitVec 32) (data : Nat) (room : Option Handle) :
    Option CTimerLayering :=
  if elapse.toInt ≤ 0 then some c
  else match room with
    | none => some c
    | some h =>
      if c.pool h = none then
        let info : STimerInfo := ⟨false, c.last_tick + elapse, elapse, count, data⟩
        some ((c.addTimerInfo h info).record (.armed h info.expires))
      else none

/-- `h` is the handle of a timer. `pool_.is_from` accepts any chunk of the pool, that of a destroyed timer too: there the
calls below would work on freed memory, and `step` asks for a timer. A handle from elsewhere is refused at once. -/
def live (c : CTimerLayering) (h : Handle) : Bool := (c.pool h).isSome

/-- `AdjustTimer` of a timer. -/
def adjustTimer (c : CTimerLayering) (h : Handle) (elapse count : BitVec 32) (data : Nat) : CTimerLayering :=
  match c.pool h with
  | none => c
  | some info =>
    if info.expires = c.last_tick + elapse ∧ info.linked then c
    else
      let info' := { info with
        expires := c.last_tick + elapse
        elapse := elapse
        count := count
        data := if data ≠ 0 then data else info.data }
      if info.linked then
        (((c.detachTimer h info).record (.disarmed h)).addTimerInfo h info').record (.armed h info'.expires)
      else c.store h (some info')

/-- `RemoveTimer` of a timer; the one in its callback is only marked. -/
def removeTimer (c : CTimerLayering) (h : Handle) : CTimerLayering :=
  match c.pool h with
  | none => c
  | some info =>
    if info.linked then ((c.detachTimer h info).record (.disarmed h)).store h none
    else c.store h (some { info with count := 0 })

/-- One turn of the outer loop, down to the inner one. -/
def loop (c : CTimerLayering) (tick : BitVec 32) : CTimerLayering :=
  if tick = c.last_tick then { c with phase := .idle }
  else
    let index := Level.tv1.index c.last_tick
    let c := c.cascades
    { c.setVec .tv1 index [] with work_list := c.vec .tv1 index, phase := .working tick }

/-- One turn of the inner loop, down to the callback, or the end of the tick. -/
def take (c : CTimerLayering) (tick : BitVec 32) : CTimerLayering :=
  match c.work_list with
  | [] => { c with last_tick := c.last_tick + 1, phase := .ticking tick }.record .ticked
  | h :: _ => match c.pool h with
    | none => c
    | some info =>
      let c := (c.detachTimer h info).record (.taken h)
      if info.count = 0 then c.store h none
      else { c.store h (some { info with linked := false, count := info.count - 1 }) with phase := .calling tick h }

/-- The callback of `h` is over; `now` is the clock's reading. -/
def ret (c : CTimerLayering) (tick : BitVec 32) (h : Handle) (now : BitVec 32) : CTimerLayering :=
  match c.pool h with
  | none => c
  | some info =>
    if info.count = 0 then { c.store h none with phase := .working tick }
    else
      let info' := { info with expires := now + info.elapse }
      { (c.addTimerInfo h info').record (.armed h info'.expires) with phase := .working tick }

end CTimerLayering

/-- What the outside does: calls from the program or from a callback, an `Update`, the end
of a callback; or the update goes on by itself. -/
inductive Action where
  | addTimer (elapse count : BitVec 32) (data : Nat) (room : Option Handle)
  | adjustTimer (h : Handle) (elapse count : BitVec 32) (data : Nat)
  | removeTimer (h : Handle)
  | update (tick : BitVec 32)
  | go
  | ret (now : BitVec 32)
  deriving DecidableEq, Repr

/-- Calls come from outside an update or from a callback. -/
def Phase.callable : Phase → Bool
  | .idle => true
  | .calling _ _ => true
  | _ => false

def step (c : CTimerLayering) : Action → Option CTimerLayering
  | .addTimer elapse count data room => if c.phase.callable then c.addTimer elapse count data room else none
  | .adjustTimer h elapse count data =>
    if c.phase.callable && c.live h then some (c.adjustTimer h elapse count data) else none
  | .removeTimer h => if c.phase.callable && c.live h then some (c.removeTimer h) else none
  | .update tick => if c.phase = .idle then some { c with phase := .ticking tick } else none
  | .go => match c.phase with
    | .ticking tick => some (c.loop tick)
    | .working tick => some (c.take tick)
    | _ => none
  | .ret now => match c.phase with
    | .calling tick h => some (c.ret tick h now)
    | _ => none

end GameServer.Timers.Layering

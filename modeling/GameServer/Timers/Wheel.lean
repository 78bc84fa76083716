import GameServer.Lib.Bytes
import GameServer.Lib.Run

/-!
# The time wheel

`TimeWheel`: five wheels of lists, a tick counter and one point in each wheel. `Update`
advances tick by tick; a tick that completes a turn of a wheel moves the next point, and
the lists at the points that moved are emptied from the day wheel down, each timer going
on to the wheel of its next part that is not zero or being executed.

Callbacks run in the middle of that, and they may create and release timers. The model
cuts `Update` at each pass of its loops: `advance` is the head of the tick loop, `visit`
one pass of a wheel's loop, `finish` what `excuteTimer` does after the callback. A timer
is the number of its creation, so that no two share one. Indexing outside a wheel ends the
run, and so does counting down from the least `int`. `calls` is history: the timers called, each with `msec_count` at its call.
-/

namespace GameServer.Timers.Wheel

open GameServer.Lib

/-- `TimeType`. -/
inductive Part where
  | day
  | hour
  | min
  | sec
  | msec
  deriving DecidableEq, Repr

/-- The width of `size_t`, which decides how `long long * size_t` is computed. -/
inductive SizeT where
  | w32
  | w64
  deriving DecidableEq, Repr

/-- `(a * size) / 1000` for a `long long` and a `size_t`: signed when `size_t` is narrower,
else modulo `2 ^ 64`. -/
def SizeT.scale : SizeT → Int → Nat → Int
  | .w32, a, size => (a * size).tdiv 1000
  | .w64, a, size => (a * size) % 2 ^ 64 / 1000

structure Timer where
  /-- `day`, `hour`, `min`, `sec` and `msec`. -/
  due : Part → Int
  interval : Int
  count : Int
  bRelease : Bool

/-- The place in `Update`: outside it, at the head of the tick loop, in the loops over the
wheels still to visit in this tick, or in the callback of a timer there. -/
inductive Phase where
  | idle
  | ticking (curr : Int)
  | visiting (curr : Int) (parts : List Part)
  | calling (curr : Int) (parts : List Part) (id : Nat)
  deriving DecidableEq, Repr

structure TimeWheel where
  sizeT : SizeT
  /-- The sizes of the wheels. -/
  size : Part → Nat
  /-- `day_point` to `msec_point`. -/
  point : Part → Nat
  /-- `day_wheel` to `msec_wheel`. -/
  wheel : Part → Nat → List Nat
  msec_count : Nat
  timers : Nat → Option Timer
  /-- The timers created so far. -/
  created : Nat
  phase : Phase
  calls : List (Nat × Nat)

/-- `Init`. -/
def init (sizeT : SizeT) (day_count millsec_count : Nat) : TimeWheel where
  sizeT := sizeT
  size
    | .day => day_count
    | .hour => 24
    | .min => 60
    | .sec => 60
    | .msec => if millsec_count > 1000 then 1000 else millsec_count
  point _ := 0
  wheel _ _ := []
  msec_count := 0
  timers _ := none
  created := 0
  phase := .idle
  calls := []

namespace TimeWheel

def setTimer (s : TimeWheel) (id : Nat) (timer : Option Timer) : TimeWheel :=
  { s with timers := Function.update s.timers id timer }

def setWheel (s : TimeWheel) (p : Part) (i : Nat) (ids : List Nat) : TimeWheel :=
  { s with wheel := fun p' i' => if p' = p ∧ i' = i then ids else s.wheel p' i' }

/-- `wheel[i].push_back(timer)`. -/
def push (s : TimeWheel) (p : Part) (i : Int) (id : Nat) : Option TimeWheel :=
  if 0 ≤ i ∧ i < s.size p then some (s.setWheel p i.toNat (s.wheel p i.toNat ++ [id])) else none

/-- The parts of a time in milliseconds, `msec` in ticks. -/
def parts (s : TimeWheel) (ms : Int) : Part → Int
  | .day => toInt32 (ms.tdiv 86400000)
  | .hour => (ms.tdiv 3600000).tmod 24
  | .min => (ms.tdiv 60000).tmod 60
  | .sec => (ms.tdiv 1000).tmod 60
  | .msec => toInt32 (s.sizeT.scale (ms.tmod 1000) (s.size .msec))

end TimeWheel

/-- `AddTime`: the new part, and whether it carries. -/
def addTime (t point interval : Int) (bAdd : Bool) : Int × Bool :=
  let temp := point + t + if bAdd then 1 else 0
  if temp ≥ interval then (temp - interval, true) else (temp, false)

namespace TimeWheel

/-- The four calls of `AddTime` and the day: `ms` after the time `start`. -/
def addParts (s : TimeWheel) (start : Part → Int) (ms : Int) : Part → Int :=
  let t := s.parts ms
  let msec := addTime (t .msec) (start .msec) (s.size .msec) false
  let sec := addTime (t .sec) (start .sec) 60 msec.2
  let min := addTime (t .min) (start .min) 60 sec.2
  let hour := addTime (t .hour) (start .hour) 24 min.2
  fun
  | .day => toInt32 (s.point .day + toInt32 (t .day + if hour.2 then 1 else 0))
  | .hour => hour.1
  | .min => min.1
  | .sec => sec.1
  | .msec => msec.1

/-- The end of `CreateTimer` and of `excuteTimer`: to the wheel of the first part that is
not the point's. -/
def place (s : TimeWheel) (due : Part → Int) (id : Nat) : Option TimeWheel :=
  if due .day ≠ s.point .day then s.push .day (due .day) id
  else if due .hour ≠ s.point .hour then s.push .hour (due .hour) id
  else if due .min ≠ s.point .min then s.push .min (due .min) id
  else if due .sec ≠ s.point .sec then s.push .sec (due .sec) id
  else s.push .msec (due .msec) id

/-- `new Timer`. -/
def newTimer (s : TimeWheel) (timer : Timer) : TimeWheel :=
  { s with timers := Function.update s.timers s.created (some timer), created := s.created + 1 }

/-- `CreateTimer`. -/
def createTimer (s : TimeWheel) (diff interval count : Int) : Option TimeWheel :=
  let due := s.addParts (fun p => s.point p) diff
  (s.newTimer ⟨due, interval, count, false⟩).place due s.created

/-- `RemoveTimer`. -/
def removeTimer (s : TimeWheel) (id : Nat) : Option TimeWheel :=
  match s.timers id with
  | none => none
  | some timer => some (s.setTimer id (some { timer with bRelease := true }))

/-- `GetTimerTick`; `day * 86400000` is an `int`. -/
def getTimerTick (s : TimeWheel) (due : Part → Int) : Int :=
  let count := toInt32 (due .day * 86400000) + due .hour * 3600000 + due .min * 60000 + due .sec * 1000
  s.sizeT.scale count (s.size .msec) + due .msec

/-- The points a tick later; the wheels to visit are those whose point moved, from the day
wheel down. -/
def movePoints (size point : Part → Nat) : (Part → Nat) × List Part :=
  let point := Function.update point .msec (point .msec + 1)
  if point .msec ≠ size .msec then (point, [.msec])
  else
    let point := Function.update (Function.update point .msec 0) .sec (point .sec + 1)
    if point .sec ≠ size .sec then (point, [.sec, .msec])
    else
      let point := Function.update (Function.update point .sec 0) .min (point .min + 1)
      if point .min ≠ size .min then (point, [.min, .sec, .msec])
      else
        let point := Function.update (Function.update point .min 0) .hour (point .hour + 1)
        if point .hour ≠ size .hour then (point, [.hour, .min, .sec, .msec])
        else (Function.update (Function.update point .hour 0) .day (point .day + 1), [.day, .hour, .min, .sec, .msec])

/-- The head of the tick loop: count the tick, move the points, and go to the wheels. -/
def advance (s : TimeWheel) (curr : Int) : TimeWheel :=
  let moved := movePoints s.size s.point
  { s with msec_count := s.msec_count + 1, point := moved.1, phase := .visiting curr moved.2 }

/-- One pass of the tick loop, down to the loops over the wheels. -/
def tick (s : TimeWheel) (curr : Int) : TimeWheel :=
  if s.msec_count < curr then s.advance curr else { s with phase := .idle }

/-- `excuteTimer` up to the callback. -/
def excuteTimer (s : TimeWheel) (curr : Int) (ps : List Part) (id : Nat) (timer : Timer) : TimeWheel :=
  if timer.bRelease then s.setTimer id none
  else { s with calls := s.calls ++ [(id, s.msec_count)], phase := .calling curr ps id }

end TimeWheel

/-- The parts below a part, from the top. -/
def Part.below : Part → List Part
  | .day => [.hour, .min, .sec, .msec]
  | .hour => [.min, .sec, .msec]
  | .min => [.sec, .msec]
  | .sec => [.msec]
  | .msec => []

namespace TimeWheel

/-- One pass of the loop in `UpdateDayWheel` to `UpdateMsecWheel`: the first timer goes to
the wheel of its next part that is not zero, or is executed. -/
def visit (s : TimeWheel) (curr : Int) (p : Part) (ps : List Part) : Option TimeWheel :=
  if s.size p ≤ s.point p then none
  else match s.wheel p (s.point p) with
    | [] => some { s with phase := if ps = [] then .ticking curr else .visiting curr ps }
    | id :: ids =>
      let s := s.setWheel p (s.point p) ids
      match s.timers id with
      | none => none
      | some timer => match p.below.find? (fun q => timer.due q ≠ 0) with
        | some q => s.push q (timer.due q) id
        | none => some (s.excuteTimer curr (p :: ps) id timer)

/-- Back in `excuteTimer` from the callback, with the fields of the timer written. -/
def back (s : TimeWheel) (curr : Int) (ps : List Part) (id : Nat) (timer : Option Timer) : TimeWheel :=
  { s with phase := .visiting curr ps, timers := Function.update s.timers id timer }

/-- `excuteTimer` after the callback; `count--` is undefined for the least `int`. -/
def finish (s : TimeWheel) (curr : Int) (ps : List Part) (id : Nat) : Option TimeWheel :=
  match s.timers id with
  | none => none
  | some timer =>
    if timer.count ≤ -2 ^ 31 then none
    else
      let count := timer.count - 1
      if count = 0 then some (s.back curr ps id none)
      else
        let due := s.addParts timer.due timer.interval
        let s := s.back curr ps id (some { timer with due := due, count := count })
        if s.getTimerTick due ≤ s.msec_count then s.push .msec (s.point .msec) id
        else s.place due id

end TimeWheel

inductive Action where
  | createTimer (diff interval count : Int)
  | removeTimer (id : Nat)
  /-- `Update` with this many milliseconds since `Init`. -/
  | update (interval : Int)
  | go
  | ret
  deriving DecidableEq, Repr

/-- Calls come from outside an update or from a callback. -/
def Phase.callable : Phase → Bool
  | .idle => true
  | .calling _ _ _ => true
  | _ => false

def step (s : TimeWheel) : Action → Option TimeWheel
  | .createTimer diff interval count => if s.phase.callable then s.createTimer diff interval count else none
  | .removeTimer id => if s.phase.callable then s.removeTimer id else none
  | .update interval =>
    if s.phase = .idle then some { s with phase := .ticking (s.sizeT.scale interval (s.size .msec)) } else none
  | .go => match s.phase with
    | .ticking curr => some (s.tick curr)
    | .visiting curr (p :: ps) => s.visit curr p ps
    | _ => none
  | .ret => match s.phase with
    | .calling curr ps id => s.finish curr ps id
    | _ => none

end GameServer.Timers.Wheel

import GameServer.Lib.OrderedMap
import GameServer.Lib.Run
import GameServer.Lib.Sorting
import Mathlib.Algebra.Order.Ring.Int
import Mathlib.Data.Finset.Erase
import Mathlib.Data.Finset.Insert

/-!
# A fight

`FightInfo`: the roster of a fight, kept in five containers, and the sequence of shots of the round. A fighter is known
by its address. `Fight` is the last call of `Update` and of `RandOver`, so what a fighter does in its `Fight` comes after
them, as a step of its own. `none` is undefined behaviour: an `int32` out of range, a division by zero, an iterator at the
end, an index out of bounds. `debug` is a build in which `assert` is checked.
-/

namespace GameServer.Fights

open GameServer.Lib

abbrev FightBase := Nat

/-- What the virtual functions of the fighters return. -/
structure Fighters where
  GetYisu : FightBase → Int
  GetGongsu : FightBase → Int

structure PlayerFightInfo where
  player : FightBase
  yisu_value : Int
  gongsu_value : Int
  pos : Nat
  left_yisu : Int
  left_gongsu : Int
deriving DecidableEq

structure FightInfo where
  Players : OrderedMap FightBase PlayerFightInfo
  ShotSequence : List PlayerFightInfo
  Yisus : OrderedMap Int Int
  Gongsus : OrderedMap Int Int
  Maps : List (Finset FightBase)

inductive Call where
  | RandOver (p : FightBase)
  | Update
  | Fight (p : FightBase)
deriving DecidableEq

/-- A result that has to fit in an `int32`. -/
def int32 (n : Int) : Option Int := if -2 ^ 31 ≤ n ∧ n < 2 ^ 31 then some n else none

theorem eq_of_int32 {n m : Int} (fits : int32 n = some m) : n = m := by
  unfold int32 at fits
  split at fits
  · exact Option.some.inj fits
  · cases fits

/-- The constructor. -/
def FightInfo.new (count : Nat) : FightInfo where
  Players := .empty
  ShotSequence := []
  Yisus := .empty
  Gongsus := .empty
  Maps := List.replicate count ∅

namespace FightInfo

variable (w : Fighters) (std : StdSort) (debug : Bool) (s : FightInfo)

def AddPlayer (p : FightBase) (pos : Nat) : Option FightInfo := do
  let temp : PlayerFightInfo := ⟨p, 0, 0, pos, 0, 0⟩
  let Players := if s.Players.find p = none then s.Players.set p temp else s.Players
  let yisu ← int32 ((s.Yisus.find (w.GetYisu p)).getD 0 + 1)
  let gongsu ← int32 ((s.Gongsus.find (w.GetGongsu p)).getD 0 + 1)
  let map ← s.Maps[pos]?
  some { s with
    Players := Players
    Yisus := s.Yisus.set (w.GetYisu p) yisu
    Gongsus := s.Gongsus.set (w.GetGongsu p) gongsu
    Maps := s.Maps.set pos (insert p map) }

def RemovePlayer (p : FightBase) : Option FightInfo :=
  match s.Players.find p with
  | none => some s
  | some it => do
    let map ← s.Maps[it.pos]?
    some { s with
      Yisus := decrease s.Yisus (w.GetYisu it.player)
      Gongsus := decrease s.Gongsus (w.GetGongsu it.player)
      Maps := s.Maps.set it.pos (map.erase p)
      Players := s.Players.erase p }

/-- The shots that a speed is good for, and what is left of it, in ten thousandths of `lower_value`. -/
def shots (speed left lower_value : Int) : Option (Int × Int) := do
  let product ← int32 (left * lower_value)
  let temp ← int32 (speed + product.tdiv 10000)
  let value ← int32 (temp.tdiv lower_value)
  let rest ← int32 (temp.tmod lower_value * 10000)
  let left ← int32 (rest.tdiv lower_value)
  some (value, left)

/-- The body of the loop of `Update`. -/
def shoot (lower_value : Int) (temp : PlayerFightInfo) : Option PlayerFightInfo := do
  let (yisu_value, left_yisu) ← shots (w.GetYisu temp.player) temp.left_yisu lower_value
  let (gongsu_value, left_gongsu) ← shots (w.GetGongsu temp.player) temp.left_gongsu lower_value
  some { temp with yisu_value, left_yisu, gongsu_value, left_gongsu }

/-- One pass of the loop of `Update`, over `Players` and `ShotSequence`. -/
def shootAt (lower_value : Int) (acc : OrderedMap FightBase PlayerFightInfo × List PlayerFightInfo) (p : FightBase) :
    Option (OrderedMap FightBase PlayerFightInfo × List PlayerFightInfo) := do
  let temp ← acc.1.find p
  let temp ← shoot w lower_value temp
  some (acc.1.set p temp, acc.2 ++ [temp])

/-- The comparison of the sort: the slowest comes last. -/
def faster (left right : PlayerFightInfo) : Prop := w.GetYisu left.player > w.GetYisu right.player

instance decidableFaster : DecidableRel (faster w) := fun _ _ => Int.decLt _ _

/-- The smaller one of the second speeds. -/
def lower_value : Option Int := do
  let it_yisu ← s.Yisus.keys[1]?
  let it_gongsu ← s.Gongsus.keys[1]?
  some (if it_gongsu < it_yisu then it_gongsu else it_yisu)

/-- `Update`, with the fighters whose `Fight` it calls. -/
def Update : Option (FightInfo × List Call) :=
  if debug ∧ s.Yisus.size = s.Gongsus.size then none
  else if s.Yisus.size ≤ 1 then some (s, [])
  else do
    let lower_value ← s.lower_value
    if lower_value = 0 then none
    else
      let (Players, shots) ← s.Players.keys.foldlM (shootAt w lower_value) (s.Players, [])
      let ShotSequence := std.sort (faster w) shots
      let last ← ShotSequence.getLast?
      some ({ s with Players, ShotSequence }, [.Fight last.player])

def RandOver (p : FightBase) : Option (FightInfo × List Call) :=
  if s.ShotSequence.length ≤ 1 then some (s, [])
  else do
    let last ← s.ShotSequence.getLast?
    if last.player ≠ p then some (s, [])
    else
      let s := { s with ShotSequence := s.ShotSequence.dropLast }
      match s.ShotSequence.getLast? with
      | some next => some (s, [.Fight next.player])
      | none =>
        let (s, calls) ← s.Update w std debug
        some (s, .Update :: calls)

end FightInfo

end GameServer.Fights

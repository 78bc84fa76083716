import GameServer.Lib.Frontier
import GameServer.Lib.Termination
import Mathlib.Algebra.Order.Ring.Int

/-!
# The path search

`AStar`: `GetDistance` keeps `openlist`, sorted by `dis_size`, and the set `closelist` of the cells already taken. A cell
may be in `openlist` several times and may be taken again after it has been closed. An entry points to the entry it
was found from, and never changes once it is in `openlist`, so an entry is the chain of its parents. Arithmetic is exact.
-/

namespace GameServer.AStar

open GameServer.Lib

inductive POSLocal where
  | mk (x y size distance dis_size : Int) (para : Option POSLocal)

namespace POSLocal

def x : POSLocal → Int
  | mk x _ _ _ _ _ => x

def y : POSLocal → Int
  | mk _ y _ _ _ _ => y

def size : POSLocal → Int
  | mk _ _ size _ _ _ => size

def dis_size : POSLocal → Int
  | mk _ _ _ _ dis_size _ => dis_size

def para : POSLocal → Option POSLocal
  | mk _ _ _ _ _ para => para

def cell (p : POSLocal) : Int × Int := (p.x, p.y)

def setPara (p : POSLocal) (para : Option POSLocal) : POSLocal :=
  match p with
  | mk x y size distance dis_size _ => mk x y size distance dis_size para

@[simp] theorem setPara_para (p : POSLocal) (para : Option POSLocal) : (p.setPara para).para = para := by
  cases p
  rfl

@[simp] theorem setPara_cell (p : POSLocal) (para : Option POSLocal) : (p.setPara para).cell = p.cell := by
  cases p
  rfl

@[simp] theorem setPara_size (p : POSLocal) (para : Option POSLocal) : (p.setPara para).size = p.size := by
  cases p
  rfl

@[simp] theorem setPara_dis_size (p : POSLocal) (para : Option POSLocal) : (p.setPara para).dis_size = p.dis_size := by
  cases p
  rfl

/-- The loop at the end of `GetDistance`, over the cells. -/
def distan : POSLocal → List (Int × Int)
  | mk x y _ _ _ none => [(x, y)]
  | mk x y _ _ _ (some para) => (x, y) :: para.distan

end POSLocal

/-- `getID`. -/
def getID (cell : Int × Int) : Int := cell.1 * 2 ^ 32 + cell.2

/-- What `LoadMap` is given. -/
structure Grid where
  map : Int → Int
  map_x : Int
  map_y : Int
  int : map_y < 2 ^ 31 := by decide

namespace Grid

variable (g : Grid)

def at_ (x y : Int) : Int := g.map (x * g.map_y + y)

def calc_distance (x y dst_x dst_y : Int) : Int := (x - dst_x) * (x - dst_x) + (y - dst_y) * (y - dst_y)

/-- A new entry, found from `the`. -/
def found (the : POSLocal) (dst : Int × Int) (x y : Int) : POSLocal :=
  let distance := calc_distance x y dst.1 dst.2
  .mk x y (the.size + 1) distance (the.size + 1 + distance) (some the)

/-- The free cells next to `the`. -/
def findohterpos (the : POSLocal) (dst : Int × Int) : List POSLocal :=
  (if the.x - 1 ≥ 0 ∧ g.at_ (the.x - 1) the.y ≠ 1 then [found the dst (the.x - 1) the.y] else []) ++
  (if the.x + 1 < g.map_x ∧ g.at_ (the.x + 1) the.y ≠ 1 then [found the dst (the.x + 1) the.y] else []) ++
  (if the.y - 1 ≥ 0 ∧ g.at_ the.x (the.y - 1) ≠ 1 then [found the dst the.x (the.y - 1)] else []) ++
  (if the.y + 1 < g.map_y ∧ g.at_ the.x (the.y + 1) ≠ 1 then [found the dst the.x (the.y + 1)] else [])

end Grid

/-- Before the first entry with a larger `dis_size`. -/
def InsertOpenPOS (temp : POSLocal) : List POSLocal → List POSLocal
  | [] => [temp]
  | fir :: openlist => if fir.dis_size > temp.dis_size then temp :: fir :: openlist else fir :: InsertOpenPOS temp openlist

/-- The loop over `openlist` for one entry of `other`: the first entry for the same cell passes on its parent. -/
def inherit (openlist : List POSLocal) (other : POSLocal) : POSLocal :=
  match openlist.find? fun it => it.x = other.x ∧ it.y = other.y with
  | some it => if it.dis_size < other.dis_size then other.setPara it.para else other
  | none => other

/-- The pass of the loop over `other` for one entry. -/
def openOther (closelist : Finset Int) (openlist : List POSLocal) (other : POSLocal) : List POSLocal :=
  if getID other.cell ∈ closelist then openlist else InsertOpenPOS (inherit openlist other) openlist

/-- `GetDistance` at the head of its loop, or returned. -/
inductive Search where
  | looking (openlist : List POSLocal) (closelist : Finset Int)
  | returned (distan : List (Int × Int))

namespace Grid

variable (g : Grid) (curr dst : Int × Int)

/-- The test of the arguments; it lets through a coordinate that is equal to the size of the map. -/
def refuses : Prop :=
  curr.1 < 0 ∨ curr.1 > g.map_x ∨ curr.2 < 0 ∨ curr.2 > g.map_y ∨
    dst.1 < 0 ∨ dst.1 > g.map_x ∨ dst.2 < 0 ∨ dst.2 > g.map_y ∨ g.at_ dst.1 dst.2 = 1 ∨ g.at_ curr.1 curr.2 = 1

instance decidableRefuses : Decidable (g.refuses curr dst) := inferInstanceAs (Decidable (_ ∨ _))

/-- `GetDistance` up to its loop. -/
def GetDistance : Search :=
  if g.refuses curr dst then .returned []
  else
    let distance := calc_distance curr.1 curr.2 dst.1 dst.2
    .looking [.mk curr.1 curr.2 0 distance distance none] {getID curr}

/-- One pass of the loop of `GetDistance`. -/
def turn : Search → Option Search
  | .looking [] _ => none
  | .looking (best :: openlist) closelist =>
    if best.x = dst.1 ∧ best.y = dst.2 then some (.returned best.distan)
    else
      let closelist := insert (getID best.cell) closelist
      let openlist := (g.findohterpos best dst).foldl (openOther closelist) openlist
      if openlist = [] then some (.returned []) else some (.looking openlist closelist)
  | .returned _ => none

end Grid

end GameServer.AStar

import GameServer.AStar.Paths
import Mathlib.Tactic.Linarith

/-!
# The indices of the map

`GetDistance` lets through a coordinate that is equal to the size of the map. A position beyond the last row has no cell. One beyond the
end of a row has the index of the first cell in the next row, and a search that begins there can walk along the ends of the rows up
to the last but one, from where it looks at the cell behind the map.
-/

namespace GameServer.AStar

open GameServer.Lib

namespace Grid

variable (g : Grid) (curr dst : Int × Int)

/-- An index of one of the `map_x * map_y` cells. -/
def InMap (i : Int) : Prop := 0 ≤ i ∧ i < g.map_x * g.map_y

/-- The comparisons of the entry check. -/
def beyond : Prop :=
  curr.1 < 0 ∨ curr.1 > g.map_x ∨ curr.2 < 0 ∨ curr.2 > g.map_y ∨
    dst.1 < 0 ∨ dst.1 > g.map_x ∨ dst.2 < 0 ∨ dst.2 > g.map_y

instance decidableBeyond : Decidable (g.beyond curr dst) := inferInstanceAs (Decidable (_ ∨ _))

/-- The indices that the entry check evaluates, as far as it gets. -/
def checked : List Int :=
  if g.beyond curr dst then []
  else (dst.1 * g.map_y + dst.2) ::
    if g.map (dst.1 * g.map_y + dst.2) = 1 then [] else [curr.1 * g.map_y + curr.2]

/-- The indices that `findohterpos` evaluates. -/
def probes (the : POSLocal) : List Int :=
  (if the.x - 1 ≥ 0 then [(the.x - 1) * g.map_y + the.y] else []) ++
  (if the.x + 1 < g.map_x then [(the.x + 1) * g.map_y + the.y] else []) ++
  (if the.y - 1 ≥ 0 then [the.x * g.map_y + the.y - 1] else []) ++
  (if the.y + 1 < g.map_y then [the.x * g.map_y + (the.y + 1)] else [])

end Grid

variable {g : Grid} {curr dst c d : Int × Int} {s : Search}

/-- `findohterpos` looks at the map at no other indices. -/
theorem findohterpos_probes (the : POSLocal) (map : Int → Int) (same : ∀ i ∈ g.probes the, map i = g.map i) :
    Grid.findohterpos { g with map := map } the dst = g.findohterpos the dst := by
  simp only [Grid.probes, List.mem_append, List.mem_ite_nil_right, List.mem_singleton] at same
  have left : the.x - 1 ≥ 0 → map ((the.x - 1) * g.map_y + the.y) = g.map ((the.x - 1) * g.map_y + the.y) :=
    fun inside => same _ (.inl (.inl (.inl ⟨inside, rfl⟩)))
  have right : the.x + 1 < g.map_x → map ((the.x + 1) * g.map_y + the.y) = g.map ((the.x + 1) * g.map_y + the.y) :=
    fun inside => same _ (.inl (.inl (.inr ⟨inside, rfl⟩)))
  have down : the.y - 1 ≥ 0 → map (the.x * g.map_y + (the.y - 1)) = g.map (the.x * g.map_y + (the.y - 1)) :=
    fun inside => same _ (.inl (.inr ⟨inside, by rw [Int.add_sub_assoc]⟩))
  have up : the.y + 1 < g.map_y → map (the.x * g.map_y + (the.y + 1)) = g.map (the.x * g.map_y + (the.y + 1)) :=
    fun inside => same _ (.inr ⟨inside, rfl⟩)
  unfold Grid.findohterpos Grid.at_
  congr 1
  · congr 1
    · congr 1
      · exact if_congr (and_congr_right fun inside => not_congr (Eq.congr (left inside) rfl)) rfl rfl
      · exact if_congr (and_congr_right fun inside => not_congr (Eq.congr (right inside) rfl)) rfl rfl
    · exact if_congr (and_congr_right fun inside => not_congr (Eq.congr (down inside) rfl)) rfl rfl
  · exact if_congr (and_congr_right fun inside => not_congr (Eq.congr (up inside) rfl)) rfl rfl

section Indices

/-- A position whose index is one of the map: a cell, or beyond the end of a row that is not the last one. -/
def Indexed (g : Grid) (c : Int × Int) : Prop :=
  g.Inside c ∨ (0 ≤ c.1 ∧ c.1 + 1 < g.map_x ∧ c.2 = g.map_y ∧ 0 < g.map_y)

end Indices

section Search

variable {R : Int × Int → Prop} {the best e : POSLocal} {openlist : List POSLocal} {closelist : Finset Int} {t : Search}

/-- The positions that `findohterpos` looks at. -/
structure Around (g : Grid) (R : Int × Int → Prop) (the : POSLocal) : Prop where
  left : the.x - 1 ≥ 0 → R (the.x - 1, the.y)
  right : the.x + 1 < g.map_x → R (the.x + 1, the.y)
  down : the.y - 1 ≥ 0 → R (the.x, the.y - 1)
  up : the.y + 1 < g.map_y → R (the.x, the.y + 1)

theorem Around.mono {R' : Int × Int → Prop} (around : Around g R the) (weaker : ∀ c, R c → R' c) : Around g R' the :=
  ⟨fun bound => weaker _ (around.left bound), fun bound => weaker _ (around.right bound), fun bound => weaker _ (around.down bound),
    fun bound => weaker _ (around.up bound)⟩

/-- All entries are for these cells. -/
def Kept (R : Int × Int → Prop) : Search → Prop
  | .looking openlist _ => ∀ e ∈ openlist, R e.cell
  | .returned _ => True

end Search

/-- One cell, and a position beside it. -/
def single : Grid where
  map := fun _ => 0
  map_x := 1
  map_y := 1

end GameServer.AStar

import GameServer.AStar.Search
import Mathlib.Data.Finset.Prod
import Mathlib.Data.Finset.Range
import Mathlib.Data.List.Chain
import Mathlib.Order.WithBot

/-!
# The path that is found

The search is complete, since the cells next to a closed one are closed or open (`Covered`), and it ends, since only
cells that are not closed are opened (`rank`). It is sound, since every open entry but the first one has a parent in a
cell next to its own, also when the parent is inherited from an older entry: the older entry is for the same cell, and
it is not the first entry, whose cell is closed from the start.
-/

namespace GameServer.AStar

open GameServer.Lib

/-- One step in one of the four directions. -/
def Adjacent (c d : Int × Int) : Prop :=
  d = (c.1 - 1, c.2) ∨ d = (c.1 + 1, c.2) ∨ d = (c.1, c.2 - 1) ∨ d = (c.1, c.2 + 1)

namespace Grid

def Inside (g : Grid) (c : Int × Int) : Prop := 0 ≤ c.1 ∧ c.1 < g.map_x ∧ 0 ≤ c.2 ∧ c.2 < g.map_y

def Free (g : Grid) (c : Int × Int) : Prop := g.Inside c ∧ g.at_ c.1 c.2 ≠ 1

/-- A step onto a free cell. -/
def Next (g : Grid) (c d : Int × Int) : Prop := Adjacent c d ∧ g.Free d

end Grid

variable {g : Grid} {curr dst : Int × Int}

/-- Cells of a map have different numbers. -/
theorem getID_inj {c d : Int × Int} (inside : g.Inside c) (inside' : g.Inside d) (same : getID c = getID d) : c = d := by
  have int := g.int
  obtain ⟨-, -, low, high⟩ := inside
  obtain ⟨-, -, low', high'⟩ := inside'
  unfold getID at same
  apply Prod.ext <;> omega

section Entries

variable {e o temp : POSLocal} {openlist : List POSLocal}

/-- `p` is the end of a path over free cells that begins at `curr`. -/
structure Good (g : Grid) (curr : Int × Int) (p : POSLocal) : Prop where
  steps : List.IsChain (fun d c => g.Next c d) p.distan
  last : p.distan.getLast? = some curr

/-- What an entry of `openlist` is: the first one, or one with a parent next to it. -/
def Entry (g : Grid) (curr : Int × Int) (e : POSLocal) : Prop :=
  (e.para = none ∧ e.cell = curr) ∨ ∃ q, e.para = some q ∧ Good g curr q ∧ g.Next q.cell e.cell

theorem distan_eq (e : POSLocal) : e.distan = e.cell :: (e.para.map POSLocal.distan).getD [] := by
  cases e with
  | mk x y size distance dis_size para => cases para <;> rfl

theorem Entry.good (entry : Entry g curr e) : Good g curr e := by
  rcases entry with ⟨first, rfl⟩ | ⟨q, para, good, next⟩
  · constructor <;> rw [distan_eq, first] <;> simp
  · have path : e.distan = e.cell :: q.distan := by rw [distan_eq, para]; rfl
    constructor
    · rw [path, distan_eq q, List.isChain_cons_cons, ← distan_eq]
      exact ⟨next, good.steps⟩
    · rw [path, distan_eq q, List.getLast?_cons_cons, ← distan_eq]
      exact good.last

theorem Entry.inside (entry : Entry g curr e) (begin : g.Inside curr) : g.Inside e.cell := by
  rcases entry with ⟨-, rfl⟩ | ⟨q, -, -, next⟩
  · exact begin
  · exact next.2.1

theorem insert_perm (temp : POSLocal) (openlist : List POSLocal) : (InsertOpenPOS temp openlist).Perm (temp :: openlist) := by
  induction openlist with
  | nil => exact .refl _
  | cons fir openlist ih =>
    unfold InsertOpenPOS
    split
    · exact .refl _
    · exact (ih.cons fir).trans (.swap temp fir openlist)

/-- An entry keeps its parent, or has that of an entry for the same cell that comes before it. -/
theorem inherit_cases (openlist : List POSLocal) (o : POSLocal) :
    inherit openlist o = o ∨
      ∃ it ∈ openlist, it.cell = o.cell ∧ it.dis_size < o.dis_size ∧ inherit openlist o = o.setPara it.para := by
  unfold inherit
  split
  · next it found =>
    split
    · next smaller =>
      have same := List.find?_some found
      simp only [decide_eq_true_eq] at same
      exact .inr ⟨it, List.mem_of_find?_eq_some found, Prod.ext same.1 same.2, smaller, rfl⟩
    · exact .inl rfl
  · exact .inl rfl

theorem size_inherit (openlist : List POSLocal) (o : POSLocal) : (inherit openlist o).size = o.size := by
  rcases inherit_cases openlist o with same | ⟨it, -, -, -, same⟩
  · rw [same]
  · rw [same, POSLocal.setPara_size]

theorem dis_size_inherit (openlist : List POSLocal) (o : POSLocal) : (inherit openlist o).dis_size = o.dis_size := by
  rcases inherit_cases openlist o with same | ⟨it, -, -, -, same⟩
  · rw [same]
  · rw [same, POSLocal.setPara_dis_size]

theorem cell_inherit (openlist : List POSLocal) (o : POSLocal) : (inherit openlist o).cell = o.cell := by
  rcases inherit_cases openlist o with same | ⟨it, -, -, -, same⟩
  · rw [same]
  · rw [same, POSLocal.setPara_cell]

/-- An inherited parent is next to the cell: the entry it comes from is not the first one. -/
theorem Entry.inherit (entry : Entry g curr o) (entries : ∀ e ∈ openlist, Entry g curr e) (other : o.cell ≠ curr) :
    Entry g curr (inherit openlist o) := by
  rcases inherit_cases openlist o with same | ⟨it, mem, same, -, inherited⟩
  · rw [same]
    exact entry
  · rw [inherited]
    rcases entries it mem with ⟨-, first⟩ | ⟨q, para, good, next⟩
    · exact absurd (same.symm.trans first) other
    · refine .inr ⟨q, ?_, good, ?_⟩
      · rw [POSLocal.setPara_para, para]
      · rw [POSLocal.setPara_cell, ← same]
        exact next

/-- The entries that `findohterpos` makes are those for the free cells next to `the`. -/
theorem mem_findohterpos {the : POSLocal} (inside : g.Inside the.cell) :
    o ∈ g.findohterpos the dst ↔ ∃ d, g.Next the.cell d ∧ o = Grid.found the dst d.1 d.2 := by
  obtain ⟨x_low, x_high, y_low, y_high⟩ := inside
  simp only [POSLocal.cell] at x_low x_high y_low y_high
  simp only [Grid.findohterpos, List.mem_append, List.mem_ite_nil_right, List.mem_singleton, Grid.Next, Grid.Free, Grid.Inside,
    Adjacent, POSLocal.cell]
  constructor
  · rintro (((⟨⟨low, free⟩, rfl⟩ | ⟨⟨low, free⟩, rfl⟩) | ⟨⟨low, free⟩, rfl⟩) | ⟨⟨low, free⟩, rfl⟩)
    · exact ⟨(the.x - 1, the.y), ⟨by simp, ⟨low, by dsimp only; omega, y_low, y_high⟩, free⟩, rfl⟩
    · exact ⟨(the.x + 1, the.y), ⟨by simp, ⟨by dsimp only; omega, low, y_low, y_high⟩, free⟩, rfl⟩
    · exact ⟨(the.x, the.y - 1), ⟨by simp, ⟨x_low, x_high, low, by dsimp only; omega⟩, free⟩, rfl⟩
    · exact ⟨(the.x, the.y + 1), ⟨by simp, ⟨x_low, x_high, by dsimp only; omega, low⟩, free⟩, rfl⟩
  · rintro ⟨d, ⟨rfl | rfl | rfl | rfl, ⟨⟨x_low', x_high', y_low', y_high'⟩, free⟩⟩, rfl⟩
    · exact .inl (.inl (.inl ⟨⟨x_low', free⟩, rfl⟩))
    · exact .inl (.inl (.inr ⟨⟨x_high', free⟩, rfl⟩))
    · exact .inl (.inr ⟨⟨y_low', free⟩, rfl⟩)
    · exact .inr ⟨⟨y_high', free⟩, rfl⟩

/-- What is found from an entry is an entry. -/
theorem Entry.found {the : POSLocal} (entry : Entry g curr the) {d : Int × Int} (next : g.Next the.cell d) :
    Entry g curr (Grid.found the dst d.1 d.2) :=
  .inr ⟨the, rfl, entry.good, next⟩

end Entries

section Opening

variable {closelist : Finset Int} {openlist openlist' other : List POSLocal} {e o best : POSLocal}

/-- What opening cells does to `openlist`: it stays a list of entries, keeps those it has, and gets none for closed cells. -/
structure Opened (g : Grid) (curr : Int × Int) (closelist : Finset Int) (openlist openlist' : List POSLocal) : Prop where
  entries : ∀ e ∈ openlist', Entry g curr e
  kept : ∀ e ∈ openlist, e ∈ openlist'
  again : (openlist'.filter fun e => getID e.cell ∈ closelist).length ≤ (openlist.filter fun e => getID e.cell ∈ closelist).length

theorem openOther_cases (closelist : Finset Int) (openlist : List POSLocal) (o : POSLocal) :
    (getID o.cell ∈ closelist ∧ openOther closelist openlist o = openlist) ∨
      (getID o.cell ∉ closelist ∧ (openOther closelist openlist o).Perm (inherit openlist o :: openlist)) := by
  unfold openOther
  split
  · next closed => exact .inl ⟨closed, rfl⟩
  · next unclosed => exact .inr ⟨unclosed, insert_perm _ _⟩

/-- No entry is lost. -/
theorem mem_openOther (closelist : Finset Int) (o : POSLocal) (mem : e ∈ openlist) : e ∈ openOther closelist openlist o := by
  rcases openOther_cases closelist openlist o with ⟨-, same⟩ | ⟨-, perm⟩
  · rw [same]
    exact mem
  · exact perm.mem_iff.2 (List.mem_cons_of_mem _ mem)

theorem Opened.next (opened : Opened g curr closelist openlist openlist') (begun : getID curr ∈ closelist)
    (entry : Entry g curr o) : Opened g curr closelist openlist (openOther closelist openlist' o) := by
  rcases openOther_cases closelist openlist' o with ⟨-, same⟩ | ⟨unclosed, perm⟩
  · rw [same]
    exact opened
  have other : o.cell ≠ curr := by
    rintro rfl
    exact unclosed begun
  refine ⟨?_, fun e mem => mem_openOther closelist o (opened.kept e mem), ?_⟩
  · intro e mem
    rcases List.mem_cons.1 (perm.mem_iff.1 mem) with rfl | mem
    · exact entry.inherit opened.entries other
    · exact opened.entries e mem
  · rw [(perm.filter _).length_eq, List.filter_cons_of_neg]
    · exact opened.again
    · simpa only [cell_inherit, decide_eq_true_eq] using unclosed

theorem Opened.all (entries : ∀ e ∈ openlist, Entry g curr e) (begun : getID curr ∈ closelist)
    (others : ∀ o ∈ other, Entry g curr o) :
    Opened g curr closelist openlist (other.foldl (openOther closelist) openlist) :=
  foldl_keeps (Opened g curr closelist openlist) other (fun _ o mem opened => opened.next begun (others o mem))
    ⟨entries, fun _ mem => mem, Nat.le_refl _⟩

/-- A cell that is not closed is opened. -/
theorem mem_foldl_openOther (mem : o ∈ other) (unclosed : getID o.cell ∉ closelist) :
    ∃ e ∈ other.foldl (openOther closelist) openlist, e.cell = o.cell ∧ e.size = o.size := by
  refine foldl_reaches (fun _ => True) (fun openlist : List POSLocal => ∃ e ∈ openlist, e.cell = o.cell ∧ e.size = o.size)
    (fun _ _ _ => trivial) mem ?_ ?_ trivial
  · intro openlist _
    rcases openOther_cases closelist openlist o with ⟨closed, -⟩ | ⟨-, perm⟩
    · exact absurd closed unclosed
    · exact ⟨inherit openlist o, perm.mem_iff.2 List.mem_cons_self, cell_inherit openlist o, size_inherit openlist o⟩
  · rintro openlist o' - ⟨e, mem, same⟩
    exact ⟨e, mem_openOther closelist o' mem, same⟩

end Opening

section Loop

variable {closelist : Finset Int} {openlist : List POSLocal} {best : POSLocal} {c : Int × Int} {l : List (Int × Int)}

def closed (g : Grid) (closelist : Finset Int) : Set (Int × Int) := {c | g.Inside c ∧ getID c ∈ closelist}

def front (openlist : List POSLocal) : Set (Int × Int) := {c | ∃ e ∈ openlist, e.cell = c}

theorem closed_insert (inside : g.Inside c) : closed g (insert (getID c) closelist) = insert c (closed g closelist) := by
  ext d
  simp only [closed, Set.mem_ofPred_eq, Set.mem_insert_iff, Finset.mem_insert]
  constructor
  · rintro ⟨inside', same | mem⟩
    · exact .inl (getID_inj inside' inside same)
    · exact .inr ⟨inside', mem⟩
  · rintro (rfl | ⟨inside', mem⟩)
    · exact ⟨inside, .inl rfl⟩
    · exact ⟨inside', .inr mem⟩

theorem front_cons (best : POSLocal) (openlist : List POSLocal) : front (best :: openlist) = insert best.cell (front openlist) := by
  ext d
  constructor
  · rintro ⟨e, mem, cell⟩
    rcases List.mem_cons.1 mem with rfl | mem
    · exact .inl cell.symm
    · exact .inr ⟨e, mem, cell⟩
  · rintro (rfl | ⟨e, mem, cell⟩)
    · exact ⟨best, List.mem_cons_self, rfl⟩
    · exact ⟨e, List.mem_cons_of_mem best mem, cell⟩

/-- What holds at the head of the loop. -/
structure Looking (g : Grid) (curr dst : Int × Int) (openlist : List POSLocal) (closelist : Finset Int) : Prop where
  entries : ∀ e ∈ openlist, Entry g curr e
  begun : getID curr ∈ closelist
  covered : Covered g.Next (closed g closelist) (front openlist)
  /-- When `dst` is closed it is taken next. -/
  target : getID dst ∈ closelist → openlist.head?.map POSLocal.cell = some dst

/-- The cells of the map, by their numbers. -/
def cells (g : Grid) : Finset Int :=
  (Finset.range g.map_x.toNat ×ˢ Finset.range g.map_y.toNat).image fun c => getID (c.1, c.2)

theorem mem_cells (inside : g.Inside c) : getID c ∈ cells g := by
  obtain ⟨x_low, x_high, y_low, y_high⟩ := inside
  refine Finset.mem_image.2 ⟨(c.1.toNat, c.2.toNat), Finset.mem_product.2 ⟨?_, ?_⟩, ?_⟩
  · rw [Finset.mem_range]
    omega
  · rw [Finset.mem_range]
    omega
  · unfold getID
    dsimp only
    omega

/-- `openlist` after `best` has been taken from it. -/
def expanded (g : Grid) (dst : Int × Int) (best : POSLocal) (openlist : List POSLocal) (closelist : Finset Int) : List POSLocal :=
  (g.findohterpos best dst).foldl (openOther (insert (getID best.cell) closelist)) openlist

/-- What is not closed is opened. -/
theorem mem_expanded {o : POSLocal} (mem : o ∈ g.findohterpos best dst) (unclosed : getID o.cell ∉ insert (getID best.cell) closelist) :
    ∃ e ∈ expanded g dst best openlist closelist, e.cell = o.cell ∧ e.size = o.size := mem_foldl_openOther mem unclosed

/-- The measure of the search. -/
def left (g : Grid) (openlist : List POSLocal) (closelist : Finset Int) : Nat ×ₗ Nat :=
  rank (cells g) closelist (openlist.map fun e => getID e.cell)

section Step

variable (looking : Looking g curr dst (best :: openlist) closelist) (begin : g.Inside curr)
include looking begin

theorem Looking.opened :
    Opened g curr (insert (getID best.cell) closelist) openlist (expanded g dst best openlist closelist) := by
  have entry := looking.entries best List.mem_cons_self
  apply Opened.all (fun e mem => looking.entries e (List.mem_cons_of_mem best mem)) (Finset.mem_insert_of_mem looking.begun)
  intro o mem
  obtain ⟨d, next, rfl⟩ := (mem_findohterpos (entry.inside begin)).1 mem
  exact entry.found next

theorem Looking.unclosed (goal : g.Inside dst) (other : best.cell ≠ dst) :
    getID dst ∉ insert (getID best.cell) closelist := by
  have inside := (looking.entries best List.mem_cons_self).inside begin
  rw [Finset.mem_insert, not_or]
  constructor
  · intro same
    exact other (getID_inj goal inside same).symm
  · intro mem
    exact other (Option.some.inj (looking.target mem))

/-- Taking an entry that is not for `dst`. -/
theorem Looking.step (goal : g.Inside dst) (other : best.cell ≠ dst) :
    Looking g curr dst (expanded g dst best openlist closelist) (insert (getID best.cell) closelist) := by
  have inside := (looking.entries best List.mem_cons_self).inside begin
  have opened := looking.opened begin
  refine ⟨opened.entries, Finset.mem_insert_of_mem looking.begun, ?_, ?_⟩
  · have covered := looking.covered
    rw [front_cons] at covered
    rw [closed_insert inside]
    apply covered.expand
    · rintro c ⟨e, mem, cell⟩
      exact ⟨e, opened.kept e mem, cell⟩
    · intro d next
      rw [← closed_insert inside]
      by_cases isClosed : getID d ∈ insert (getID best.cell) closelist
      · exact .inl ⟨next.2.1, isClosed⟩
      · have mem : Grid.found best dst d.1 d.2 ∈ g.findohterpos best dst := (mem_findohterpos inside).2 ⟨d, next, rfl⟩
        obtain ⟨e, mem, cell, -⟩ := mem_expanded mem isClosed
        exact .inr ⟨e, mem, cell⟩
  · intro isClosed
    exact absurd isClosed (looking.unclosed begin goal other)

theorem Looking.left_lt :
    left g (expanded g dst best openlist closelist) (insert (getID best.cell) closelist) < left g (best :: openlist) closelist := by
  have inside := (looking.entries best List.mem_cons_self).inside begin
  apply rank_expand (mem_cells inside)
  simp only [List.filter_map, List.length_map]
  exact (looking.opened begin).again

end Step

/-- `l` is a path from `dst` back to `curr`. -/
structure Path (g : Grid) (curr dst : Int × Int) (l : List (Int × Int)) : Prop where
  head : l.head? = some dst
  last : l.getLast? = some curr
  steps : l.IsChain Adjacent
  free : ∀ c ∈ l, g.Free c

/-- Both cells are free, and steps over free cells lead from one to the other. -/
def Reachable (g : Grid) (curr dst : Int × Int) : Prop :=
  g.Free curr ∧ g.Free dst ∧ Relation.ReflTransGen g.Next curr dst

theorem Adjacent.symm {c d : Int × Int} (adjacent : Adjacent c d) : Adjacent d c := by
  rcases adjacent with rfl | rfl | rfl | rfl
  · exact .inr (.inl (by simp))
  · exact .inl (by simp)
  · exact .inr (.inr (.inr (by simp)))
  · exact .inr (.inr (.inl (by simp)))

/-- Every cell of a chain of parents is free and reached from `curr`. -/
theorem chain_reaches (steps : l.IsChain fun d c => g.Next c d) (last : l.getLast? = some curr) (free : g.Free curr) :
    ∀ c ∈ l, g.Free c ∧ Relation.ReflTransGen g.Next curr c := by
  induction l with
  | nil => intro c mem; cases mem
  | cons d l ih =>
    cases l with
    | nil =>
      intro c mem
      obtain rfl := List.mem_singleton.1 mem
      obtain rfl : c = curr := Option.some.inj last
      exact ⟨free, .refl⟩
    | cons c l =>
      rw [List.isChain_cons_cons] at steps
      rw [List.getLast?_cons_cons] at last
      have rest := ih steps.2 last
      intro e mem
      rcases List.mem_cons.1 mem with rfl | mem
      · exact ⟨steps.1.2, (rest c List.mem_cons_self).2.tail steps.1⟩
      · exact rest e mem

theorem Good.path (good : Good g curr best) (free : g.Free curr) : Path g curr best.cell best.distan where
  head := by rw [distan_eq]; rfl
  last := good.last
  steps := good.steps.imp fun _ _ next => next.1.symm
  free := fun c mem => (chain_reaches good.steps good.last free c mem).1

theorem Good.reachable (good : Good g curr best) (free : g.Free curr) : Reachable g curr best.cell := by
  have mem : best.cell ∈ best.distan := by rw [distan_eq]; exact List.mem_cons_self
  obtain ⟨free', path⟩ := chain_reaches good.steps good.last free _ mem
  exact ⟨free, free', path⟩

/-- What `GetDistance` has to answer. -/
structure Answer (g : Grid) (curr dst : Int × Int) (l : List (Int × Int)) : Prop where
  found : l ≠ [] ↔ Reachable g curr dst
  path : l ≠ [] → Path g curr dst l

theorem Answer.nil (unreachable : ¬ Reachable g curr dst) : Answer g curr dst [] :=
  ⟨⟨fun some => absurd rfl some, fun reachable => absurd reachable unreachable⟩, fun some => absurd rfl some⟩

/-- The invariant of the search. -/
def Sound (g : Grid) (curr dst : Int × Int) : Search → Prop
  | .looking openlist closelist => Looking g curr dst openlist closelist ∧ g.Free curr ∧ openlist ≠ []
  | .returned l => Answer g curr dst l

/-- The rank of the search; it is least when the search has returned. -/
def rankOf (g : Grid) : Search → WithBot (Nat ×ₗ Nat)
  | .looking openlist closelist => (left g openlist closelist : WithBot (Nat ×ₗ Nat))
  | .returned _ => ⊥

theorem sound_start (begin : g.Inside curr) (goal : g.Inside dst) : Sound g curr dst (g.GetDistance curr dst) := by
  unfold Grid.GetDistance
  split
  · next refuses =>
    apply Answer.nil
    rintro ⟨free, free', -⟩
    obtain ⟨low, high, low', high'⟩ := begin
    obtain ⟨dst_low, dst_high, dst_low', dst_high'⟩ := goal
    rcases refuses with bad | bad | bad | bad | bad | bad | bad | bad | bad | bad
    all_goals first | omega | exact free'.2 bad | exact free.2 bad
  · next accepts =>
    have free : g.Free curr := by
      refine ⟨begin, fun blocked => accepts ?_⟩
      simp only [Grid.refuses, blocked, or_true]
    refine ⟨⟨?_, Finset.mem_singleton_self _, ?_, ?_⟩, free, List.cons_ne_nil _ _⟩
    · intro e mem
      obtain rfl := List.mem_singleton.1 mem
      exact .inl ⟨rfl, rfl⟩
    · rintro c ⟨inside, mem⟩
      obtain rfl := getID_inj inside begin (Finset.mem_singleton.1 mem)
      exact .inl ⟨_, List.mem_cons_self, rfl⟩
    · intro mem
      obtain rfl := getID_inj goal begin (Finset.mem_singleton.1 mem)
      rfl

theorem sound_turn (begin : g.Inside curr) (goal : g.Inside dst) {s t : Search} (sound : Sound g curr dst s)
    (next : g.turn dst s = some t) : Sound g curr dst t ∧ rankOf g t < rankOf g s := by
  match s with
  | .returned l => cases next
  | .looking [] closelist => cases next
  | .looking (best :: openlist) closelist =>
    obtain ⟨looking, free, -⟩ := sound
    have good := (looking.entries best List.mem_cons_self).good
    simp only [Grid.turn] at next
    split at next
    · next found =>
      cases next
      obtain rfl : best.cell = dst := Prod.ext found.1 found.2
      refine ⟨⟨?_, fun _ => good.path free⟩, WithBot.bot_lt_coe _⟩
      refine ⟨fun _ => good.reachable free, fun _ => ?_⟩
      rw [distan_eq]
      exact List.cons_ne_nil _ _
    · next other =>
      have other : best.cell ≠ dst := fun same => other ⟨congrArg Prod.fst same, congrArg Prod.snd same⟩
      have after := looking.step begin goal other
      split at next
      · next nothing =>
        cases next
        refine ⟨Answer.nil ?_, WithBot.bot_lt_coe _⟩
        rintro ⟨-, -, path⟩
        have none : ∀ d, d ∉ front (expanded g dst best openlist closelist) := by
          rintro d ⟨e, mem, -⟩
          rw [expanded, nothing] at mem
          cases mem
        have closed := after.covered.complete none ⟨begin, after.begun⟩ path
        exact looking.unclosed begin goal other closed.2
      · next some =>
        cases next
        exact ⟨⟨after, free, some⟩, WithBot.coe_lt_coe.2 (looking.left_lt begin)⟩

/-- The search does not stop before it returns. -/
theorem Sound.returned {s : Search} (sound : Sound g curr dst s) (stop : g.turn dst s = none) :
    ∃ l, s = .returned l ∧ Answer g curr dst l := by
  match s with
  | .returned l => exact ⟨l, rfl, sound⟩
  | .looking [] closelist => exact absurd rfl sound.2.2
  | .looking (best :: openlist) closelist =>
    simp only [Grid.turn] at stop
    split at stop
    · cases stop
    · split at stop
      · cases stop
      · cases stop

/-- The search comes to an end, with the right answer. -/
theorem exists_answer (begin : g.Inside curr) (goal : g.Inside dst) :
    ∃ l, Settles (g.turn dst) (g.GetDistance curr dst) (.returned l) ∧ Answer g curr dst l := by
  obtain ⟨s, settles, sound⟩ := exists_settles wellFounded_lt (rankOf g) (Sound g curr dst) (sound_start begin goal)
    fun _ _ sound next => sound_turn begin goal sound next
  obtain ⟨l, rfl, answer⟩ := sound.returned settles.2
  exact ⟨l, settles, answer⟩

/-- **The path search is sound and complete.** -/
theorem distance_found (begin : g.Inside curr) (goal : g.Inside dst) :
    ∃ l, Settles (g.turn dst) (g.GetDistance curr dst) (.returned l) ∧
      (l ≠ [] ↔ g.Free curr ∧ g.Free dst ∧ Relation.ReflTransGen g.Next curr dst) ∧
      (l ≠ [] → l.head? = some dst ∧ l.getLast? = some curr ∧ l.IsChain Adjacent ∧ ∀ c ∈ l, g.Free c) := by
  obtain ⟨l, settles, answer⟩ := exists_answer begin goal
  refine ⟨l, settles, answer.found, ?_⟩
  intro some
  obtain ⟨head, last, steps, free⟩ := answer.path some
  exact ⟨head, last, steps, free⟩

/-- Two rows of three cells, one of them blocked. -/
def walled : Grid where
  map := fun i => if i = 1 then 1 else 0
  map_x := 2
  map_y := 3

/-- The way is around the blocked cell. -/
theorem distance_found_walled :
    ∃ l, Settles (walled.turn (0, 2)) (walled.GetDistance (0, 0) (0, 2)) (.returned l) ∧
      l.head? = some (0, 2) ∧ l.getLast? = some (0, 0) ∧ l.IsChain Adjacent ∧ ∀ c ∈ l, walled.Free c := by
  have free : ∀ c ∈ [((0, 0) : Int × Int), (1, 0), (1, 1), (1, 2), (0, 2)], walled.Free c := by
    unfold Grid.Free Grid.Inside
    decide
  have way : Relation.ReflTransGen walled.Next (0, 0) (0, 2) := by
    have first : Relation.ReflTransGen walled.Next (0, 0) (1, 0) := .single ⟨.inr (.inl rfl), free (1, 0) (by decide)⟩
    have second := first.tail (⟨.inr (.inr (.inr rfl)), free (1, 1) (by decide)⟩ : walled.Next (1, 0) (1, 1))
    have third := second.tail (⟨.inr (.inr (.inr rfl)), free (1, 2) (by decide)⟩ : walled.Next (1, 1) (1, 2))
    exact third.tail ⟨.inl rfl, free (0, 2) (by decide)⟩
  obtain ⟨l, settles, found, path⟩ :=
    @distance_found walled (0, 0) (0, 2) ⟨by decide, by decide, by decide, by decide⟩ ⟨by decide, by decide, by decide, by decide⟩
  exact ⟨l, settles, path (found.2 ⟨free _ (by decide), free _ (by decide), way⟩)⟩

end Loop

end GameServer.AStar

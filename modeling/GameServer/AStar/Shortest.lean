import GameServer.AStar.Paths
import GameServer.Lib.BestFirst
import Mathlib.Tactic.Linarith

/-!
# Shortest paths

The square of a distance is larger than the number of steps, so the path that is found need not be a shortest one. It is one where
the estimates guide the search: `openlist` is sorted by them, and what a cell inherits is the path of an entry that comes before its
own.
-/

namespace GameServer.AStar

open GameServer.Lib

variable {g : Grid} {curr dst : Int × Int}

/-- What an entry of a cell has on top of its size. -/
def guess (dst c : Int × Int) : Int := Grid.calc_distance c.1 c.2 dst.1 dst.2

/-- The cells of an entry and of its parents, and its size. -/
def trace (e : POSLocal) : Found (Int × Int) := ⟨e.distan, e.size⟩

section Sorted

variable {e it o temp best : POSLocal} {openlist openlist' : List POSLocal} {closelist : Finset Int} {taken : Set (Found (Int × Int))}

theorem trace_head (e : POSLocal) : (trace e).way.head? = some e.cell := by
  rw [trace, distan_eq]
  rfl

/-- The entries come by their estimates. -/
def Sorted (openlist : List POSLocal) : Prop := openlist.Pairwise fun e f => e.dis_size ≤ f.dis_size

theorem Sorted.insert (sorted : Sorted openlist) (temp : POSLocal) : Sorted (InsertOpenPOS temp openlist) := by
  induction openlist with
  | nil => exact List.pairwise_singleton _ temp
  | cons fir openlist ih =>
    rw [InsertOpenPOS]
    obtain ⟨first, rest⟩ := List.pairwise_cons.1 sorted
    split_ifs with larger
    · refine List.pairwise_cons.2 ⟨?_, sorted⟩
      intro e mem
      rcases List.mem_cons.1 mem with rfl | mem
      · exact Int.le_of_lt larger
      · exact (Int.le_of_lt larger).trans (first e mem)
    · refine List.pairwise_cons.2 ⟨?_, ih rest⟩
      intro e mem
      rcases List.mem_cons.1 ((insert_perm temp openlist).mem_iff.1 mem) with rfl | mem
      · exact Int.not_lt.1 larger
      · exact first e mem

theorem distan_setPara (cell : it.cell = o.cell) : (o.setPara it.para).distan = it.distan := by
  rw [distan_eq, distan_eq it, POSLocal.setPara_cell, POSLocal.setPara_para, cell]

/-- `dis_size` is what it should be. -/
def Written (dst : Int × Int) (e : POSLocal) : Prop := e.dis_size = e.size + guess dst e.cell

/-- What opening the cells next to `best` does to `openlist`. -/
structure Grown (g : Grid) (dst : Int × Int) (best : POSLocal) (taken : Set (Found (Int × Int))) (openlist openlist' : List POSLocal) :
    Prop where
  sorted : Sorted openlist'
  written : ∀ e ∈ openlist', Written dst e
  kept : ∀ e ∈ openlist, e ∈ openlist'
  new : ∀ e ∈ openlist', e ∈ openlist ∨ Opens g.Next taken (trace '' {e | e ∈ best :: openlist}) (trace best) (trace e)

/-- One of the cells. -/
theorem Grown.next (grown : Grown g dst best taken openlist openlist') {d : Int × Int} (next : g.Next best.cell d)
    (closes : ∀ f ∈ insert (trace best) taken, ∀ c, f.way.head? = some c → getID c ∈ closelist) :
    Grown g dst best taken openlist (openOther closelist openlist' (Grid.found best dst d.1 d.2)) := by
  generalize is : Grid.found best dst d.1 d.2 = o
  have cell : o.cell = d := by rw [← is]; rfl
  have size : o.size = best.size + 1 := by rw [← is]; rfl
  have distan : o.distan = d :: best.distan := by rw [← is]; rfl
  have written : Written dst o := by rw [← is]; rfl
  rcases openOther_cases closelist openlist' o with ⟨-, same⟩ | ⟨unclosed, perm⟩
  · rw [same]
    exact grown
  have fresh : ∀ f ∈ insert (trace best) taken, f.way.head? ≠ some d := by
    intro f mem head
    rw [cell] at unclosed
    exact unclosed (closes f mem d head)
  refine ⟨?_, ?_, fun e mem => mem_openOther closelist o (grown.kept e mem), ?_⟩
  · rw [openOther, if_neg unclosed]
    exact grown.sorted.insert _
  · intro e mem
    rcases List.mem_cons.1 (perm.mem_iff.1 mem) with rfl | mem
    · rw [Written, dis_size_inherit, size_inherit, cell_inherit]
      exact written
    · exact grown.written e mem
  · intro e mem
    rcases List.mem_cons.1 (perm.mem_iff.1 mem) with rfl | mem
    · refine .inr ⟨best.cell, d, trace_head best, next, fresh, ?_, ?_⟩
      · exact (size_inherit openlist' o).trans size
      rcases inherit_cases openlist' o with same | ⟨it, mem, cell', smaller, same⟩
      · rw [same]
        exact .inl distan
      · -- what the older entry has from where
        have way : (trace (inherit openlist' o)).way = it.distan := by
          rw [same]
          exact distan_setPara cell'
        have size' : it.size < (trace (inherit openlist' o)).size := by
          have older := grown.written it mem
          rw [Written] at older written
          rw [older, written, cell'] at smaller
          rw [trace, size_inherit]
          dsimp only
          omega
        rw [way]
        rcases grown.new it mem with mem | ⟨-, d', -, -, -, -, extends' | ⟨f, mem, same, less, head⟩⟩
        · exact .inr ⟨trace it, ⟨it, List.mem_cons_of_mem best mem, rfl⟩, rfl, size', by rw [trace_head, cell', cell]⟩
        · left
          have head := trace_head it
          rw [extends', cell', cell] at head
          rw [← Option.some.inj head]
          exact extends'
        · exact .inr ⟨f, mem, same, less.trans size', by rw [same, trace_head, cell', cell]⟩
    · exact grown.new e mem

/-- All the cells next to `best`. -/
theorem Grown.all (inside : g.Inside best.cell) (sorted : Sorted openlist) (written : ∀ e ∈ openlist, Written dst e)
    (closes : ∀ f ∈ insert (trace best) taken, ∀ c, f.way.head? = some c → getID c ∈ insert (getID best.cell) closelist) :
    Grown g dst best taken openlist (expanded g dst best openlist closelist) := by
  refine foldl_keeps (Grown g dst best taken openlist) (g.findohterpos best dst) ?_
    ⟨sorted, written, fun _ mem => mem, fun _ mem => .inl mem⟩
  intro openlist' o mem grown
  obtain ⟨d, next, rfl⟩ := (mem_findohterpos inside).1 mem
  exact grown.next next closes

end Sorted

section Search

variable {e best : POSLocal} {openlist : List POSLocal} {closelist : Finset Int} {taken : Set (Found (Int × Int))} {l : List (Int × Int)}

/-- What is known of the search at the head of its loop, when it has taken these. -/
structure Tracing (g : Grid) (curr dst : Int × Int) (openlist : List POSLocal) (closelist : Finset Int)
    (taken : Set (Found (Int × Int))) : Prop where
  explored : Explored g.Next (guess dst) curr dst taken (trace '' {e | e ∈ openlist})
  sorted : Sorted openlist
  written : ∀ e ∈ openlist, Written dst e
  closes : ∀ f ∈ taken, ∀ c, f.way.head? = some c → getID c ∈ closelist
  /-- The first cell is closed before it is taken. -/
  closed : ∀ c, g.Inside c → getID c ∈ closelist → (∃ f ∈ taken, f.way.head? = some c) ∨ ∃ e ∈ openlist, e.cell = c ∧ e.size ≤ 0

/-- The first entry has the least estimate. -/
theorem Tracing.least (tracing : Tracing g curr dst (best :: openlist) closelist taken) :
    ∀ f ∈ trace '' {e | e ∈ best :: openlist}, ∀ d, f.way.head? = some d →
      (trace best).size + guess dst best.cell ≤ f.size + guess dst d := by
  rintro f ⟨e, mem, rfl⟩ d head
  obtain rfl : e.cell = d := Option.some.inj ((trace_head e).symm.trans head)
  have first := tracing.written best List.mem_cons_self
  have other := tracing.written e mem
  rw [Written] at first other
  rw [trace, trace, ← first, ← other]
  rcases List.mem_cons.1 mem with rfl | mem
  · exact Int.le_refl _
  · exact (List.pairwise_cons.1 tracing.sorted).1 e mem

/-- What is taken is closed. -/
theorem Tracing.closes_taken (tracing : Tracing g curr dst (best :: openlist) closelist taken) :
    ∀ f ∈ insert (trace best) taken, ∀ c, f.way.head? = some c → getID c ∈ insert (getID best.cell) closelist := by
  intro f mem c head
  rcases Set.mem_insert_iff.1 mem with rfl | mem
  · obtain rfl : best.cell = c := Option.some.inj ((trace_head best).symm.trans head)
    exact Finset.mem_insert_self _ closelist
  · exact Finset.mem_insert_of_mem (tracing.closes f mem c head)

/-- What is closed is taken, or the first cell is still open. -/
theorem Tracing.closed_taken (tracing : Tracing g curr dst (best :: openlist) closelist taken) (inside : g.Inside best.cell)
    (kept : ∀ e ∈ openlist, e ∈ expanded g dst best openlist closelist) :
    ∀ c, g.Inside c → getID c ∈ insert (getID best.cell) closelist → (∃ f ∈ insert (trace best) taken, f.way.head? = some c) ∨
      ∃ e ∈ expanded g dst best openlist closelist, e.cell = c ∧ e.size ≤ 0 := by
  intro c inside' mem
  rcases Finset.mem_insert.1 mem with same | mem
  · obtain rfl := getID_inj inside' inside same
    exact .inl ⟨trace best, Set.mem_insert _ taken, trace_head best⟩
  · rcases tracing.closed c inside' mem with ⟨f, mem', head⟩ | ⟨e, mem', rfl, size⟩
    · exact .inl ⟨f, Set.mem_insert_of_mem _ mem', head⟩
    · rcases List.mem_cons.1 mem' with rfl | mem'
      · exact .inl ⟨trace e, Set.mem_insert _ taken, trace_head e⟩
      · exact .inr ⟨e, kept e mem', rfl, size⟩

/-- Taking the first entry, when it is not for `dst`. -/
theorem Tracing.step (tracing : Tracing g curr dst (best :: openlist) closelist taken)
    (looking : Looking g curr dst (best :: openlist) closelist) (guides : Guides g.Next (guess dst) curr dst) (begin : g.Inside curr)
    (other : best.cell ≠ dst) :
    Tracing g curr dst (expanded g dst best openlist closelist) (insert (getID best.cell) closelist) (insert (trace best) taken) := by
  have inside := (looking.entries best List.mem_cons_self).inside begin
  have grown : Grown g dst best taken openlist (expanded g dst best openlist closelist) :=
    Grown.all inside (List.pairwise_cons.1 tracing.sorted).2 (fun e mem => tracing.written e (List.mem_cons_of_mem best mem))
      tracing.closes_taken
  have closed := tracing.closed_taken inside grown.kept
  refine ⟨?_, grown.sorted, grown.written, tracing.closes_taken, closed⟩
  have here : trace best ∈ trace '' {e | e ∈ best :: openlist} := ⟨best, List.mem_cons_self, rfl⟩
  apply tracing.explored.take guides here tracing.least (distan_eq best) other
  · rintro f ⟨e, mem, rfl⟩
    rcases List.mem_cons.1 mem with rfl | mem
    · exact .inl rfl
    · exact .inr ⟨e, grown.kept e mem, rfl⟩
  · rintro f ⟨e, mem, rfl⟩
    rcases grown.new e mem with mem | opens
    · exact .inl ⟨e, List.mem_cons_of_mem best mem, rfl⟩
    · exact .inr opens
  · intro d next
    by_cases isClosed : getID d ∈ insert (getID best.cell) closelist
    · rcases closed d next.2.1 isClosed with taken' | ⟨e, mem, cell, size⟩
      · exact .inl taken'
      · have length := (tracing.explored.traced _ (.inr here)).size
        rw [trace, distan_eq, List.length_cons] at length
        refine .inr ⟨trace e, ⟨e, mem, rfl⟩, by rw [trace_head, cell], ?_⟩
        rw [trace, trace]
        dsimp only at length ⊢
        omega
    · have mem : Grid.found best dst d.1 d.2 ∈ g.findohterpos best dst := (mem_findohterpos inside).2 ⟨d, next, rfl⟩
      obtain ⟨e, mem, cell, size⟩ := mem_expanded mem isClosed
      exact .inr ⟨trace e, ⟨e, mem, rfl⟩, by rw [trace_head, cell]; rfl, size.le⟩

/-- When the search begins. -/
theorem Tracing.start (begin : g.Inside curr) (first : POSLocal)
    (is : first = .mk curr.1 curr.2 0 (guess dst curr) (guess dst curr) none) : Tracing g curr dst [first] {getID curr} ∅ := by
  have only : trace '' {e | e ∈ [first]} = {⟨[curr], 0⟩} := by
    simp [is, trace, POSLocal.distan, POSLocal.size]
  refine ⟨?_, List.pairwise_singleton _ first, ?_, nofun, ?_⟩
  · rw [only]
    exact Explored.start curr dst
  · intro e mem
    rw [List.mem_singleton.1 mem, is, Written]
    exact (Int.zero_add _).symm
  · intro c inside mem
    obtain rfl := getID_inj inside begin (Finset.mem_singleton.1 mem)
    refine .inr ⟨first, List.mem_cons_self, ?_, ?_⟩
    · rw [is]
      rfl
    · rw [is]
      exact Int.le_refl 0

theorem Path.way (path : Path g curr dst l) : Way g.Next curr dst l := by
  refine ⟨path.head, path.last, ?_⟩
  have free := path.free
  have steps := path.steps
  clear path
  induction l with
  | nil => exact .nil
  | cons d l ih =>
    cases l with
    | nil => exact List.isChain_singleton d
    | cons c l =>
      rw [List.isChain_cons_cons] at steps ⊢
      refine ⟨⟨steps.1.symm, free d List.mem_cons_self⟩, ?_⟩
      exact ih (fun e mem => free e (List.mem_cons_of_mem d mem)) steps.2

end Search

section DeadEnds

variable {c d u y : Int × Int} {e l p q s w : List (Int × Int)}

/-- The number of steps to `dst`, where nothing is in the way. -/
def stepsTo (dst c : Int × Int) : Nat := (c.1 - dst.1).natAbs + (c.2 - dst.2).natAbs

/-- A step onto a free cell that is nearer to `dst`. -/
def Nearer (g : Grid) (dst c d : Int × Int) : Prop := g.Next c d ∧ stepsTo dst d + 1 = stepsTo dst c

theorem stepsTo_adjacent (dst : Int × Int) (adjacent : Adjacent c d) :
    stepsTo dst d + 1 = stepsTo dst c ∨ stepsTo dst d = stepsTo dst c + 1 := by
  unfold stepsTo
  rcases adjacent with rfl | rfl | rfl | rfl <;> dsimp only <;> omega

/-- Of two cells next to each other the nearer one has the smaller distance. -/
theorem guess_lt (adjacent : Adjacent c d) (nearer : stepsTo dst d + 1 = stepsTo dst c) : guess dst d < guess dst c := by
  unfold stepsTo at nearer
  unfold guess Grid.calc_distance
  rcases adjacent with rfl | rfl | rfl | rfl <;> dsimp only at nearer ⊢
  · have right : 1 ≤ c.1 - dst.1 := by omega
    nlinarith
  · have left : c.1 - dst.1 ≤ -1 := by omega
    nlinarith
  · have right : 1 ≤ c.2 - dst.2 := by omega
    nlinarith
  · have left : c.2 - dst.2 ≤ -1 := by omega
    nlinarith

/-- No way is shorter than the number of steps. -/
theorem stepsTo_le (dst : Int × Int) (way : Way g.Next curr c l) : stepsTo dst curr + 1 ≤ stepsTo dst c + l.length := by
  apply way.induct (motive := fun c l => stepsTo dst curr + 1 ≤ stepsTo dst c + l.length)
  · exact Nat.le_refl _
  · intro c d r next before
    have change := stepsTo_adjacent dst next.1
    simp only [List.length_cons] at before ⊢
    omega

/-- A way that comes nearer in each step has as many. -/
theorem stepsTo_eq (way : Way (Nearer g dst) curr c l) : stepsTo dst curr + 1 = stepsTo dst c + l.length := by
  apply way.induct (motive := fun c l => stepsTo dst curr + 1 = stepsTo dst c + l.length)
  · rfl
  · intro c d r next before
    have change := next.2
    simp only [List.length_cons] at before ⊢
    omega

/-- Its estimates do not rise. -/
theorem estimate_le (way : Way (Nearer g dst) curr d (d :: e)) (part : (u :: q) <:+ d :: e) :
    e.length + guess dst d ≤ q.length + guess dst u := by
  induction e generalizing d with
  | nil =>
    obtain ⟨rfl, rfl⟩ := List.cons.inj (part.eq_of_length_le (by simp))
    exact Int.le_refl _
  | cons c e ih =>
    rcases List.suffix_cons_iff.1 part with same | part
    · obtain ⟨rfl, rfl⟩ := List.cons.inj same
      exact Int.le_refl _
    · have before := ih (way.suffix (List.suffix_cons d (c :: e))) part
      obtain ⟨next, nearer⟩ := (List.isChain_cons_cons.1 way.steps).1
      have less := guess_lt next.1 nearer
      rw [List.length_cons]
      omega

/-- A way comes nearer in each step, or there is a first one that leads away. -/
theorem nearer_or_away (dst : Int × Int) (way : Way g.Next curr y (y :: p)) : Way (Nearer g dst) curr y (y :: p) ∨
    ∃ c u q, (c :: u :: q) <:+ y :: p ∧ Way (Nearer g dst) curr u (u :: q) ∧ Adjacent u c ∧ stepsTo dst c = stepsTo dst u + 1 := by
  induction p generalizing y with
  | nil => exact .inl ⟨rfl, way.last, List.isChain_singleton y⟩
  | cons d p ih =>
    obtain ⟨next, -⟩ := List.isChain_cons_cons.1 way.steps
    rcases ih (way.suffix (List.suffix_cons y (d :: p))) with nearer | ⟨c, u, q, part, rest⟩
    · rcases stepsTo_adjacent dst next.1 with less | more
      · exact .inl (nearer.cons ⟨next, less⟩)
      · exact .inr ⟨y, d, p, List.suffix_rfl, nearer, next.1, more⟩
    · exact .inr ⟨c, u, q, part.trans (List.suffix_cons y (d :: p)), rest⟩

/-- No cell that is reached in steps nearer to `dst` is a dead end. -/
def NoDeadEnd (g : Grid) (curr dst : Int × Int) : Prop :=
  ∀ c, Relation.ReflTransGen (Nearer g dst) curr c → c ≠ dst → ∃ d, Nearer g dst c d

/-- A way that comes nearer can go on to `dst`. -/
theorem NoDeadEnd.goes_on (noDeadEnd : NoDeadEnd g curr dst) (way : Way (Nearer g dst) curr u (u :: q)) :
    ∃ s, Way (Nearer g dst) curr dst (dst :: s) ∧ (u :: q) <:+ dst :: s := by
  induction left : stepsTo dst u generalizing u q with
  | zero =>
    obtain rfl : u = dst := by
      unfold stepsTo at left
      apply Prod.ext <;> omega
    exact ⟨q, way, List.suffix_rfl⟩
  | succ n ih =>
    have other : u ≠ dst := by
      rintro rfl
      simp [stepsTo] at left
    obtain ⟨d, next, nearer⟩ := noDeadEnd u way.reaches other
    obtain ⟨s, way, part⟩ := ih (way.cons ⟨next, nearer⟩) (by omega)
    exact ⟨s, way, (List.suffix_cons d (u :: q)).trans part⟩

/-- Where the search meets no dead end the estimates guide it. -/
theorem NoDeadEnd.guides (noDeadEnd : NoDeadEnd g curr dst) : Guides g.Next (guess dst) curr dst := by
  intro z y s p shortest way simple late
  have joins := shortest.way.suffix (List.suffix_append z (y :: s))
  rcases nearer_or_away dst (way.suffix (List.suffix_append z (y :: p))) with nearer | ⟨c, u, q, part, toU, adjacent, away⟩
  · have least := stepsTo_le dst joins
    have exact' := stepsTo_eq nearer
    simp only [List.length_cons] at least exact'
    omega
  obtain ⟨s', onward, part'⟩ := noDeadEnd.goes_on toU
  have zero : stepsTo dst dst = 0 := by simp [stepsTo]
  have shortest' : Shortest g.Next curr dst (dst :: s') := by
    refine ⟨⟨onward.head, onward.last, onward.steps.imp fun _ _ nearer => nearer.1⟩, ?_⟩
    intro l' other
    have least := stepsTo_le dst other
    have exact' := stepsTo_eq onward
    omega
  obtain ⟨z', ends⟩ : ∃ z', z ++ [y] = dst :: z' := by
    have head := way.head
    cases z with
    | nil => exact ⟨[], by rw [← Option.some.inj head]; rfl⟩
    | cons x z => exact ⟨z ++ [y], by rw [← Option.some.inj head]; rfl⟩
  refine ⟨[], z', dst, s', ends, shortest', u, q, q, c, u :: q, List.suffix_rfl, part', rfl, part, ?_⟩
  intro d e inside after
  have within : (u :: q) <:+ d :: e := List.suffix_of_suffix_length_le part' inside (by simp only [List.length_cons]; omega)
  have below := estimate_le (onward.suffix inside) within
  have above := guess_lt adjacent.symm away.symm
  rw [List.length_cons]
  omega

end DeadEnds

end GameServer.AStar

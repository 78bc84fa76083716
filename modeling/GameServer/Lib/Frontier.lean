import Mathlib.Data.Finset.Card
import Mathlib.Data.Prod.Lex
import Mathlib.Logic.Relation
import Mathlib.Order.WellFounded

/-!
# Searching with a frontier

A search keeps a set of closed nodes and a list of open ones, in which a node may occur several times, even when it is
closed. It takes an open node, closes it and opens its successors that are not closed. `Covered` is what makes it
complete: the successors of a closed node are closed or open, unless the node itself is still open. `rank` makes it
end: closing a node lowers the first component, and taking a node that has been closed before lowers the second, since
only nodes that are not closed are opened.
-/

namespace GameServer.Lib

variable {α : Type} {next : α → α → Prop} {closed front front' : Set α} {start c : α}

/-- The successors of closed nodes are closed or open, but for closed nodes that are open themselves. -/
def Covered (next : α → α → Prop) (closed front : Set α) : Prop :=
  ∀ c ∈ closed, c ∈ front ∨ ∀ d, next c d → d ∈ closed ∨ d ∈ front

/-- Once no node is open, all that is reachable is closed. -/
theorem Covered.complete (covered : Covered next closed front) (none : ∀ d, d ∉ front) (begun : start ∈ closed)
    (path : Relation.ReflTransGen next start c) : c ∈ closed := by
  induction path with
  | refl => exact begun
  | tail _ edge ih =>
    have successors := (covered _ ih).resolve_left (none _)
    exact (successors _ edge).resolve_right (none _)

/-- Taking `c` from the open nodes, closing it and opening its successors. -/
theorem Covered.expand (covered : Covered next closed (insert c front)) (grown : front ⊆ front')
    (opened : ∀ d, next c d → d ∈ insert c closed ∨ d ∈ front') : Covered next (insert c closed) front' := by
  intro d mem
  by_cases same : d = c
  · subst same
    exact .inr opened
  have mem : d ∈ closed := mem.resolve_left same
  rcases covered d mem with isOpen | successors
  · exact .inl (grown (isOpen.resolve_left same))
  · right
    intro e edge
    rcases successors e edge with isClosed | rfl | isOpen
    · exact .inl (.inr isClosed)
    · exact .inl (.inl rfl)
    · exact .inr (grown isOpen)

section Rank

variable [DecidableEq α] {all seen : Finset α} {rest rest' : List α}

/-- The nodes that are not closed, and the open entries that are. -/
def rank (all seen : Finset α) (entries : List α) : Nat ×ₗ Nat :=
  toLex ((all \ seen).card, (entries.filter (· ∈ seen)).length)

/-- Each expansion lowers the rank. -/
theorem rank_expand (inside : c ∈ all)
    (opened : (rest'.filter (· ∈ insert c seen)).length ≤ (rest.filter (· ∈ insert c seen)).length) :
    rank all (insert c seen) rest' < rank all seen (c :: rest) := by
  rw [rank, rank, Prod.Lex.toLex_lt_toLex]
  by_cases before : c ∈ seen
  · right
    rw [Finset.insert_eq_of_mem before] at opened ⊢
    refine ⟨rfl, ?_⟩
    simp only [List.filter_cons, before, decide_true, if_true, List.length_cons]
    omega
  · left
    apply Finset.card_lt_card
    apply Finset.ssubset_iff_subset_ne.2
    refine ⟨Finset.sdiff_subset_sdiff (Finset.Subset.refl all) (Finset.subset_insert c seen), ?_⟩
    intro same
    have mem : c ∈ all \ seen := Finset.mem_sdiff.2 ⟨inside, before⟩
    rw [← same] at mem
    exact (Finset.mem_sdiff.1 mem).2 (Finset.mem_insert_self c seen)

end Rank

end GameServer.Lib

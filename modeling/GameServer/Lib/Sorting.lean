import Mathlib.Data.List.Sort
import Mathlib.Order.RelClasses

/-!
# A sort

What the standard says of `std::sort`: for a strict weak order it puts the elements of a range in order
and leaves open in which order equivalent elements come. `StdSort` is any such sort, and insertion is one.
-/

namespace GameServer.Lib

structure StdSort where
  sort : {α : Type} → (lt : α → α → Prop) → [DecidableRel lt] → List α → List α
  perm : ∀ {α : Type} (lt : α → α → Prop) [DecidableRel lt] (l : List α), (sort lt l).Perm l
  sorted : ∀ {α : Type} (lt : α → α → Prop) [DecidableRel lt] [IsStrictWeakOrder α lt] (l : List α),
    (sort lt l).Pairwise fun a b => ¬ lt b a

section Weak

variable {α : Type} {lt : α → α → Prop} [IsStrictWeakOrder α lt]

/-- In a strict weak order "not after" is transitive. -/
theorem not_lt_trans {a b c : α} (first : ¬ lt b a) (second : ¬ lt c b) : ¬ lt c a := by
  intro after
  by_cases ab : lt a b
  · exact second (IsTrans.trans _ _ _ after ab)
  · by_cases bc : lt b c
    · exact first (IsTrans.trans _ _ _ bc after)
    · exact (IsStrictWeakOrder.incomp_trans a b c ⟨ab, first⟩ ⟨bc, second⟩).2 after

end Weak

/-- Insertion as a `std::sort`. -/
def StdSort.insertion : StdSort where
  sort lt _ l := l.insertionSort fun a b => ¬ lt b a
  perm lt _ l := List.perm_insertionSort _ l
  sorted lt _ _ l := by
    have total : Std.Total fun a b => ¬ lt b a := ⟨fun a b => by
      by_cases ab : lt a b
      · exact .inl fun ba => irrefl (r := lt) a (IsTrans.trans _ _ _ ab ba)
      · exact .inr ab⟩
    have trans : IsTrans _ fun a b => ¬ lt b a := ⟨fun _ _ _ => not_lt_trans⟩
    exact List.pairwise_insertionSort _ l

end GameServer.Lib

import GameServer.Lib.Run
import Mathlib.Order.WellFounded

/-!
# Loops that end

Rules for loops that end because a rank goes down. A driven machine then comes to rest (`exists_settles`). Where the
environment has a choice at each turn, `Returns` says that the loop ends whatever is chosen: it never gets stuck before
it may stop, and no choices make it go on forever. `Returns.of_rank` proves this, and `not_returns` refutes it by an
invariant that some turn always keeps.
-/

namespace GameServer.Lib

section Driven

variable {C W : Type} {f : C → Option C} {c : C} {r : W → W → Prop}

/-- A driven machine whose rank goes down at each step comes to rest. -/
theorem exists_settles (wf : WellFounded r) (rank : C → W) (Inv : C → Prop) (start : Inv c)
    (keep : ∀ c d, Inv c → f c = some d → Inv d ∧ r (rank d) (rank c)) : ∃ d, Settles f c d ∧ Inv d := by
  induction h : rank c using wf.induction generalizing c with
  | _ w ih =>
    subst h
    cases next : f c with
    | none => exact ⟨c, ⟨.refl c, next⟩, start⟩
    | some d =>
      obtain ⟨inv, less⟩ := keep c d start next
      obtain ⟨e, settles, last⟩ := ih _ less inv rfl
      exact ⟨e, (Reaches.single next).settles settles, last⟩

end Driven

section Choices

variable {S W : Type} {turn : S → S → Prop} {stop : S → Prop} {s t : S} {r : W → W → Prop}

/-- Whatever turns are taken from `s`, a state is reached that may stop. -/
inductive Returns (turn : S → S → Prop) (stop : S → Prop) : S → Prop where
  | stop {s : S} : stop s → Returns turn stop s
  | turn {s : S} : (∃ t, turn s t) → (∀ t, turn s t → Returns turn stop t) → Returns turn stop s

theorem Returns.of_rank (wf : WellFounded r) (rank : S → W) (Inv : S → Prop) (start : Inv s)
    (progress : ∀ s, Inv s → ¬ stop s → ∃ t, turn s t)
    (keep : ∀ s t, Inv s → ¬ stop s → turn s t → Inv t ∧ r (rank t) (rank s)) : Returns turn stop s := by
  induction h : rank s using wf.induction generalizing s with
  | _ w ih =>
    subst h
    by_cases last : stop s
    · exact .stop last
    · refine .turn (progress s start last) ?_
      intro t next
      obtain ⟨inv, less⟩ := keep s t start last next
      exact ih _ less inv rfl

/-- A loop that has not stopped ends from where its turns lead. -/
theorem Returns.next (returns : Returns turn stop s) (going : ¬ stop s) (next : turn s t) : Returns turn stop t := by
  cases returns with
  | stop last => exact absurd last going
  | turn _ rest => exact rest t next

/-- Where a turn can always be taken that keeps away from stopping, the loop need not end. -/
theorem not_returns (Inv : S → Prop) (start : Inv s) (away : ∀ s, Inv s → ¬ stop s)
    (keep : ∀ s t, Inv s → turn s t → ∃ t, turn s t ∧ Inv t) : ¬ Returns turn stop s := by
  intro returns
  induction returns with
  | stop last => exact away _ start last
  | turn progress _ ih =>
    obtain ⟨t, next⟩ := progress
    obtain ⟨t, next, inv⟩ := keep _ t start next
    exact ih t next inv

end Choices

end GameServer.Lib

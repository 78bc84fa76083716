import Mathlib.Data.Fintype.Card
import Mathlib.Logic.Function.Basic
import Mathlib.Logic.Relation

/-!
# Parents

A partial function that gives an element its parent. It is a forest when nobody is above itself.
Taking parents away keeps a forest (`Acyclic.mono`), and hanging `p` under `y` keeps it if and only if
`p` is not at or above `y` (`Acyclic.hang`, `not_acyclic_hang`). On finitely many elements a
forest can be walked from the top down (`Acyclic.induction`).
-/

namespace GameServer.Lib

open Relation

variable {α : Type} {parent parent' : α → Option α} {a b p y : α}

/-- `b` is the parent of `a`. -/
def Up (parent : α → Option α) (a b : α) : Prop := parent a = some b

def Acyclic (parent : α → Option α) : Prop := ∀ a, ¬ TransGen (Up parent) a a

/-- A walk up to `p` does not use the parent of `p`. -/
theorem reaches_congr (same : ∀ a, a ≠ p → parent' a = parent a) (way : ReflTransGen (Up parent) b p) :
    ReflTransGen (Up parent') b p := by
  induction way using ReflTransGen.head_induction_on with
  | refl => exact .refl
  | @head a c up _ ih =>
    by_cases at_p : a = p
    · rw [at_p]
    · apply ReflTransGen.head _ ih
      rw [Up, same a at_p]
      exact up

/-- A walk under a parent function changed at `p` either does not notice or comes through `p`. -/
theorem walk_cases (same : ∀ a, a ≠ p → parent' a = parent a) (way : TransGen (Up parent') a b) :
    TransGen (Up parent) a b ∨ ReflTransGen (Up parent') a p ∧ TransGen (Up parent') p b := by
  induction way using TransGen.head_induction_on with
  | @single a up =>
    by_cases at_p : a = p
    · subst at_p
      exact .inr ⟨.refl, .single up⟩
    · rw [Up, same a at_p] at up
      exact .inl (.single up)
  | @head a c up rest ih =>
    by_cases at_p : a = p
    · subst at_p
      exact .inr ⟨.refl, .head up rest⟩
    · rcases ih with below | ⟨first, last⟩
      · rw [Up, same a at_p] at up
        exact .inl (.head up below)
      · exact .inr ⟨.head up first, last⟩

theorem Acyclic.mono (acyclic : Acyclic parent) (le : ∀ a b, parent' a = some b → parent a = some b) : Acyclic parent' :=
  fun a cycle => acyclic a (TransGen.mono le a a cycle)

/-- **Hanging** `p` under `y` makes no cycle where `p` is not at or above `y`. -/
theorem Acyclic.hang (acyclic : Acyclic parent) (same : ∀ a, a ≠ p → parent' a = parent a) (hung : parent' p = some y)
    (apart : ¬ ReflTransGen (Up parent) y p) : Acyclic parent' := by
  intro a cycle
  rcases walk_cases same cycle with old | ⟨toP, fromP⟩
  · exact acyclic a old
  · have around : TransGen (Up parent') p p := fromP.trans_left toP
    obtain ⟨c, up, way⟩ := TransGen.head'_iff.1 around
    obtain rfl : y = c := Option.some.inj (hung.symm.trans up)
    exact apart (reaches_congr (fun a ne => (same a ne).symm) way)

theorem not_acyclic_hang (same : ∀ a, a ≠ p → parent' a = parent a) (hung : parent' p = some y)
    (above : ReflTransGen (Up parent) y p) : ¬ Acyclic parent' :=
  fun acyclic => acyclic p (TransGen.head' hung (reaches_congr same above))

/-- **Induction from the leaves**, for a forest whose links all lie in a finite part. -/
theorem Acyclic.induction {s : Set α} [Finite s] (acyclic : Acyclic parent) (inside : ∀ a b, parent a = some b → a ∈ s)
    {P : α → Prop} (step : ∀ a ∈ s, (∀ c, parent c = some a → P c) → P a) (mem : a ∈ s) : P a := by
  let Above (c d : s) : Prop := TransGen (Up parent) c d
  have trans : IsTrans s Above := ⟨fun _ _ _ first second => first.trans second⟩
  have irrefl : Std.Irrefl Above := ⟨fun c cycle => acyclic c cycle⟩
  have wf : WellFounded Above := Finite.wellFounded_of_trans_of_irrefl Above
  have all : ∀ c : s, P c := by
    intro c
    induction c using wf.induction with
    | h c ih =>
      apply step c c.2
      intro d up
      exact ih ⟨d, inside d c up⟩ (.single up)
  exact all ⟨a, mem⟩

end GameServer.Lib

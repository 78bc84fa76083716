import Mathlib.Data.List.Basic
import Mathlib.Logic.Relation

/-!
# Runs of partial step functions

Two shapes of machine occur in this development. A *labelled* machine takes an
action from its environment at every step, `step : S → A → Option S`; `Runs`
collects the action lists it accepts, each step meeting a side condition `ok`
on the state before it and the action taken. A *driven* machine has one next
state at most, `f : C → Option C`; `Settles` says where it comes to rest.

Invariants go through `Runs.invariant` (a fact kept by every step holds after
every run) and concrete runs through `Runs.of_checked` (one evaluation of
`runChecked`).
-/

namespace GameServer.Lib

section Labelled

variable {S A : Type} {step : S → A → Option S} {ok ok' : S → A → Prop} {s t u : S} {as bs : List A} {a : A}

/-- `Runs step ok s as t`: from `s` the actions `as` lead to `t`, and each step meets `ok`. -/
inductive Runs (step : S → A → Option S) (ok : S → A → Prop) (s : S) : List A → S → Prop where
  | refl : Runs step ok s [] s
  | snoc {as : List A} {a : A} {t u : S} :
      Runs step ok s as t → ok t a → step t a = some u → Runs step ok s (as ++ [a]) u

/-- **The invariant rule**: what one step keeps, a run keeps. -/
theorem Runs.invariant (Inv : S → Prop) (run : Runs step ok s as t) (start : Inv s)
    (keep : ∀ t a u, Inv t → ok t a → step t a = some u → Inv u) : Inv t := by
  induction run with
  | refl => exact start
  | snoc _ good next ih => exact keep _ _ _ ih good next

/-- The side condition may be weakened along a run. -/
theorem Runs.mono (run : Runs step ok s as t) (weaken : ∀ t a, ok t a → ok' t a) :
    Runs step ok' s as t := by
  induction run with
  | refl => exact .refl
  | snoc _ good next ih => exact .snoc ih (weaken _ _ good) next

theorem Runs.trans (first : Runs step ok s as t) (second : Runs step ok t bs u) :
    Runs step ok s (as ++ bs) u := by
  induction second with
  | refl => simpa using first
  | snoc _ good next ih => rw [← List.append_assoc]; exact .snoc ih good next

theorem Runs.single (good : ok s a) (next : step s a = some t) : Runs step ok s [a] t := by
  have first : Runs step ok s [] s := .refl
  exact first.snoc good next

/-- Some step of a labelled machine. -/
def Next (step : S → A → Option S) (ok : S → A → Prop) (s t : S) : Prop := ∃ a, ok s a ∧ step s a = some t

theorem Runs.reaches (run : Runs step ok s as t) : Relation.ReflTransGen (Next step ok) s t := by
  induction run with
  | refl => exact .refl
  | snoc _ good next ih => exact ih.tail ⟨_, good, next⟩

/-- A labelled machine is deterministic: the actions fix the state reached. -/
theorem Runs.unique (first : Runs step ok s as t) (second : Runs step ok' s as u) : t = u := by
  induction first generalizing u with
  | refl =>
    generalize empty : ([] : List A) = none' at second
    cases second with
    | refl => rfl
    | snoc => simp at empty
  | @snoc as a t _ _ _ next ih =>
    generalize whole : as ++ [a] = bs at second
    cases second with
    | refl => simp at whole
    | @snoc bs b t' _ run' _ next' =>
      obtain ⟨rfl, tail⟩ := List.append_inj' whole rfl
      obtain rfl : a = b := by simpa using tail
      obtain rfl := ih run'
      exact Option.some.inj (next.symm.trans next')

/-- The first actions of a run are a run. -/
theorem Runs.initial (run : Runs step ok s as t) (start : bs <+: as) : ∃ u, Runs step ok s bs u := by
  induction run with
  | refl =>
    obtain rfl := List.prefix_nil.1 start
    exact ⟨s, .refl⟩
  | @snoc as a t u run good next ih =>
    rcases List.prefix_concat_iff.1 start with rfl | start
    · exact ⟨u, .snoc run good next⟩
    · exact ih start

/-- A side condition on the actions alone can be read off the list of actions. -/
theorem Runs.iff_forall {p : A → Prop} (run : Runs step ok s as t) :
    Runs step (fun _ a => p a) s as t ↔ ∀ a ∈ as, p a := by
  constructor
  · intro within
    clear run
    induction within with
    | refl => intro a mem; cases mem
    | snoc _ good _ ih =>
      intro a mem
      rcases List.mem_append.1 mem with mem | mem
      · exact ih a mem
      · obtain rfl := List.mem_singleton.1 mem
        exact good
  · intro all
    induction run with
    | refl => exact .refl
    | snoc _ _ next ih =>
      have first := ih fun a mem => all a (List.mem_append_left _ mem)
      exact first.snoc (all _ (List.mem_append_right _ List.mem_cons_self)) next

/-- Two side conditions of one run. -/
theorem Runs.and (first : Runs step ok s as t) (second : Runs step ok' s as t) :
    Runs step (fun t a => ok t a ∧ ok' t a) s as t := by
  induction first with
  | refl => exact .refl
  | @snoc as a t u run good next ih =>
    generalize whole : as ++ [a] = bs at second
    cases second with
    | refl => simp at whole
    | @snoc bs b t' _ run' good' next' =>
      obtain ⟨rfl, tail⟩ := List.append_inj' whole rfl
      obtain rfl : a = b := by simpa using tail
      obtain rfl := run.unique run'
      exact (ih run').snoc ⟨good, good'⟩ next

/-- **The rule for exact conditions**: where steps that meet `ok` keep an invariant with `P`, and a step
that does not meet it leads from the invariant to a state without `P`, `P` holds all along a run if and
only if all its steps meet `ok`. The steps of all runs here meet `ok'`. -/
theorem Runs.always_and_iff (Inv : S → Prop) {P : S → Prop} (run : Runs step ok' s as t) (start : Inv s) (holds : ∀ t, Inv t → P t)
    (keep : ∀ t a u, Inv t → ok' t a → ok t a → step t a = some u → Inv u)
    (breaks : ∀ t a u, Inv t → ok' t a → ¬ ok t a → step t a = some u → ¬ P u) :
    (∀ bs u, bs <+: as → Runs step ok' s bs u → P u) ↔ Runs step (fun t a => ok' t a ∧ ok t a) s as t := by
  have kept : ∀ t a u, Inv t → ok' t a ∧ ok t a → step t a = some u → Inv u :=
    fun t a u inv both next => keep t a u inv both.1 both.2 next
  constructor
  · intro always
    induction run with
    | refl => exact .refl
    | @snoc as a t u run good next ih =>
      have before := ih fun bs v le run => always bs v (le.trans (List.prefix_append _ _)) run
      have inv := before.invariant Inv start kept
      have meets : ok t a := by
        by_contra not
        exact breaks t a u inv good not next (always _ u (List.prefix_refl _) (.snoc run good next))
      exact before.snoc ⟨good, meets⟩ next
  · intro within bs u le run'
    obtain ⟨v, run''⟩ := within.initial le
    obtain rfl := run'.unique run''
    exact holds u (run''.invariant Inv start kept)

/-- The same where the condition does not need `ok'`. -/
theorem Runs.always_iff (Inv : S → Prop) {P : S → Prop} (run : Runs step ok' s as t) (start : Inv s) (holds : ∀ t, Inv t → P t)
    (keep : ∀ t a u, Inv t → ok t a → step t a = some u → Inv u)
    (breaks : ∀ t a u, Inv t → ¬ ok t a → step t a = some u → ¬ P u) :
    (∀ bs u, bs <+: as → Runs step ok' s bs u → P u) ↔ Runs step ok s as t := by
  rw [run.always_and_iff Inv start holds (fun t a u inv _ => keep t a u inv) fun t a u inv _ => breaks t a u inv]
  exact ⟨fun both => both.mono fun _ _ both => both.2, run.and⟩

/-- Run `as` from `s`, checking the side condition at every step. -/
def runChecked (step : S → A → Option S) (okB : S → A → Bool) : S → List A → Option S
  | s, [] => some s
  | s, a :: as => if okB s a then (step s a).bind fun t => runChecked step okB t as else none

theorem Runs.of_checked {okB : S → A → Bool} (sound : ∀ s a, okB s a = true → ok s a) :
    ∀ {s : S} {as : List A}, runChecked step okB s as = some t → Runs step ok s as t
  | s, [], h => by cases h; exact .refl
  | s, a :: as, h => by
    simp only [runChecked] at h
    split at h
    · next good =>
      obtain ⟨u, next, rest⟩ := Option.bind_eq_some_iff.1 h
      exact (Runs.single (sound _ _ good) next).trans (Runs.of_checked sound rest)
    · cases h

/-- A run that is checked together with a property of the state it ends in. -/
theorem Runs.exists_of_checked (ok : S → A → Prop) {okB : S → A → Bool} (sound : ∀ s a, okB s a = true → ok s a) {p : S → Bool}
    (checked : (runChecked step okB s as).any p = true) : ∃ t, Runs step ok s as t ∧ p t = true := by
  obtain ⟨t, reached, holds⟩ := (Option.any_eq_true _ _).1 checked
  exact ⟨t, Runs.of_checked sound reached, holds⟩

/-- The same for a side condition and a property that are decidable. -/
theorem Runs.exists_of_decide {P : S → Prop} [∀ s a, Decidable (ok s a)] [DecidablePred P]
    (checked : ((runChecked step (fun s a => decide (ok s a)) s as).any fun t => decide (P t)) = true) :
    ∃ t, Runs step ok s as t ∧ P t := by
  obtain ⟨t, run, holds⟩ := Runs.exists_of_checked ok (fun _ _ => of_decide_eq_true) checked
  exact ⟨t, run, of_decide_eq_true holds⟩

end Labelled

section Folds

variable {S A : Type} {f : S → A → S} {s : S} {as : List A} {a : A}

/-- What every element keeps, a fold keeps. -/
theorem foldl_keeps (Inv : S → Prop) (as : List A) (keep : ∀ s, ∀ a ∈ as, Inv s → Inv (f s a)) (start : Inv s) :
    Inv (as.foldl f s) := by
  induction as generalizing s with
  | nil => exact start
  | cons a as ih =>
    exact ih (fun s b mem => keep s b (List.mem_cons_of_mem a mem)) (keep s a List.mem_cons_self start)

/-- What one element brings about and every element keeps holds after the fold. -/
theorem foldl_reaches (Inv P : S → Prop) (keep : ∀ s a, Inv s → Inv (f s a)) (mem : a ∈ as)
    (reach : ∀ s, Inv s → P (f s a)) (hold : ∀ s a, Inv s → P s → P (f s a)) (start : Inv s) : P (as.foldl f s) := by
  induction as generalizing s with
  | nil => cases mem
  | cons b as ih =>
    rcases List.mem_cons.1 mem with rfl | mem
    · have after : Inv (f s a) ∧ P (f s a) := ⟨keep s a start, reach s start⟩
      exact (foldl_keeps (fun s => Inv s ∧ P s) as (fun s b _ both => ⟨keep s b both.1, hold s b both.1 both.2⟩) after).2
    · exact ih mem (keep s b start)

/-- What every step of a fold that goes through keeps, the fold keeps. -/
theorem foldlM_keeps {f : S → A → Option S} {t : S} (Inv : S → Prop) (keep : ∀ s a t, Inv s → f s a = some t → Inv t)
    (start : Inv s) (run : as.foldlM f s = some t) : Inv t := by
  induction as generalizing s with
  | nil =>
    obtain rfl := Option.some.inj run
    exact start
  | cons a as ih =>
    rw [List.foldlM_cons] at run
    obtain ⟨u, next, run⟩ := Option.bind_eq_some_iff.1 run
    exact ih (keep s a u start next) run

end Folds

section Driven

variable {C : Type} {f : C → Option C} {c d e : C}

/-- Some number of steps of `f` lead from `c` to `d`. -/
inductive Reaches (f : C → Option C) : C → C → Prop where
  | refl (c : C) : Reaches f c c
  | step {c d e : C} : f c = some d → Reaches f d e → Reaches f c e

/-- `c` comes to rest at `d`. -/
def Settles (f : C → Option C) (c d : C) : Prop :=
  Reaches f c d ∧ f d = none

theorem Reaches.trans (first : Reaches f c d) (second : Reaches f d e) : Reaches f c e := by
  induction first with
  | refl => exact second
  | step next _ ih => exact .step next (ih second)

theorem Reaches.single (next : f c = some d) : Reaches f c d := .step next (.refl d)

theorem Reaches.settles (first : Reaches f c d) (second : Settles f d e) : Settles f c e :=
  ⟨first.trans second.1, second.2⟩

/-- A state on the way to rest rests at the same place. -/
theorem Settles.of_reaches (rest : Settles f c e) (first : Reaches f c d) : Settles f d e := by
  induction first with
  | refl => exact rest
  | step next _ ih =>
    obtain ⟨way, stop⟩ := rest
    cases way with
    | refl => rw [stop] at next; cases next
    | step next' way =>
      rw [next] at next'
      obtain rfl := Option.some.inj next'
      exact ih ⟨way, stop⟩

theorem Reaches.eq_of_stop (way : Reaches f c d) (stop : f c = none) : d = c := by
  cases way with
  | refl => rfl
  | step next _ => rw [stop] at next; cases next

/-- The resting place is unique. -/
theorem Settles.unique (first : Settles f c d) (second : Settles f c e) : d = e := by
  exact ((second.of_reaches first.1).1.eq_of_stop first.2).symm

/-- The states reached from one start lie on one line. -/
theorem Reaches.comparable (first : Reaches f c d) (second : Reaches f c e) : Reaches f d e ∨ Reaches f e d := by
  induction first with
  | refl => exact .inl second
  | step next way ih =>
    cases second with
    | refl => exact .inr (.step next way)
    | step next' way' =>
      rw [next] at next'
      obtain rfl := Option.some.inj next'
      exact ih way'

/-- What every step keeps holds at rest. -/
theorem Reaches.invariant (Inv : C → Prop) (way : Reaches f c d) (start : Inv c)
    (keep : ∀ c d, Inv c → f c = some d → Inv d) : Inv d := by
  induction way with
  | refl => exact start
  | step next _ ih => exact ih (keep _ _ start next)

end Driven

end GameServer.Lib

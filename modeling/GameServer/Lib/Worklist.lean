import GameServer.Lib.Run
import Mathlib.Data.List.Basic

/-!
# Trees rewritten through a stack of places

A loop takes a task and a place in a tree from a stack, rewrites the subtree at that place, and pushes tasks for places
inside it. `work` is one turn of such a loop. `Builds` says what the whole loop makes of a subtree, by recursion on what
is pushed, and `Builds.reaches` connects the two: the loop does this in place, and the rest of the tree and of the stack
stay as they are. No measure is needed, since a derivation of `Builds` is finite.

A visit often runs over the parts of a subtree in turn, and what it pushes for one part is done only after the later
parts have been added. `inTurn_yields` is the rule for that: later parts *extend* the subtree, and what extends a
subtree neither moves nor changes the places in it.
-/

namespace GameServer.Lib

/-- Trees `T` whose children are reached by hops `H`. -/
structure Places (T H : Type) where
  get : T → H → Option T
  put : T → H → T → T
  get_put : ∀ {t h s} u, get t h = some s → get (put t h u) h = some u
  put_put : ∀ {t h s} u v, get t h = some s → put (put t h u) h v = put t h v

namespace Places

variable {T H : Type} (P : Places T H) {t s : T} {p q : List H}

def getAt (t : T) : List H → Option T
  | [] => some t
  | h :: p => (P.get t h).bind fun s => getAt s p

def putAt (t : T) : List H → T → T
  | [], u => u
  | h :: p, u =>
    match P.get t h with
    | some s => P.put t h (putAt s p u)
    | none => t

variable {P}

theorem putAt_cons {h : H} (child : P.get t h = some s) (u : T) : P.putAt t (h :: p) u = P.put t h (P.putAt s p u) := by
  simp only [putAt, child]

theorem getAt_append (at_p : P.getAt t p = some s) : P.getAt t (p ++ q) = P.getAt s q := by
  induction p generalizing t with
  | nil => simpa [getAt] using congrArg (fun t => t.bind fun t => P.getAt t q) at_p
  | cons h p ih =>
    obtain ⟨c, child, rest⟩ := Option.bind_eq_some_iff.1 at_p
    simp only [List.cons_append, getAt, child, Option.bind_some]
    exact ih rest

theorem getAt_putAt (at_p : P.getAt t p = some s) (u : T) : P.getAt (P.putAt t p u) p = some u := by
  induction p generalizing t with
  | nil => simp [getAt, putAt]
  | cons h p ih =>
    obtain ⟨c, child, rest⟩ := Option.bind_eq_some_iff.1 at_p
    simp only [putAt_cons child, getAt, P.get_put _ child, Option.bind_some]
    exact ih rest

theorem putAt_putAt (at_p : P.getAt t p = some s) (u v : T) : P.putAt (P.putAt t p u) p v = P.putAt t p v := by
  induction p generalizing t with
  | nil => simp [putAt]
  | cons h p ih =>
    obtain ⟨c, child, rest⟩ := Option.bind_eq_some_iff.1 at_p
    rw [putAt_cons child, putAt_cons (P.get_put _ child), P.put_put _ _ child, putAt_cons child, ih rest]

theorem putAt_append (at_p : P.getAt t p = some s) (u : T) : P.putAt t (p ++ q) u = P.putAt t p (P.putAt s q u) := by
  induction p generalizing t with
  | nil => obtain rfl := Option.some.inj at_p; simp [putAt]
  | cons h p ih =>
    obtain ⟨c, child, rest⟩ := Option.bind_eq_some_iff.1 at_p
    rw [List.cons_append, putAt_cons child, putAt_cons child, ih rest]

end Places

section Work

variable {T H W : Type} (P : Places T H) (visit : W → T → Option (T × List (W × List H)))

/-- One turn of the loop. What is pushed last is listed first. -/
def work : T × List (W × List H) → Option (T × List (W × List H))
  | (_, []) => none
  | (t, (w, p) :: stack) => do
    let s ← P.getAt t p
    let (u, pushed) ← visit w s
    some (P.putAt t p u, pushed.map (Prod.map id (p ++ ·)) ++ stack)

mutual

/-- The task `w` makes `u` of the subtree `t`. -/
inductive Builds : W → T → T → Prop where
  | mk {w : W} {t s u : T} {pushed : List (W × List H)} : visit w t = some (s, pushed) → Fills pushed s u → Builds w t u

/-- The tasks of a list, done one after the other at their places in `t`, make `u`. -/
inductive Fills : List (W × List H) → T → T → Prop where
  | nil {t : T} : Fills [] t t
  | cons {w : W} {p : List H} {rest : List (W × List H)} {t u x y : T} :
      P.getAt t p = some x → Builds w x y → Fills rest (P.putAt t p y) u → Fills ((w, p) :: rest) t u

end

variable {P visit}

mutual

/-- **The loop builds in place.** -/
theorem Builds.reaches {p : List H} {t : T} {stack : List (W × List H)} : ∀ {w : W} {x y : T}, Builds P visit w x y →
    P.getAt t p = some x → Reaches (work P visit) (t, (w, p) :: stack) (P.putAt t p y, stack)
  | w, _, _, @Builds.mk _ _ _ _ _ _ _ s _ pushed visited fills, at_p => by
    have turn : work P visit (t, (w, p) :: stack) =
        some (P.putAt t p s, pushed.map (Prod.map id (p ++ ·)) ++ stack) := by
      simp [work, at_p, visited]
    exact .step turn (Fills.reaches at_p fills)

theorem Fills.reaches {p : List H} {t z : T} {stack : List (W × List H)} (at_p : P.getAt t p = some z) :
    ∀ {pushed : List (W × List H)} {x y : T}, Fills P visit pushed x y →
      Reaches (work P visit) (P.putAt t p x, pushed.map (Prod.map id (p ++ ·)) ++ stack) (P.putAt t p y, stack)
  | [], _, _, .nil => .refl _
  | _, x, _, @Fills.cons _ _ _ _ _ w q rest _ _ a b place builds fills => by
    have root : P.getAt (P.putAt t p x) p = some x := Places.getAt_putAt at_p x
    have here : P.getAt (P.putAt t p x) (p ++ q) = some a := (Places.getAt_append root).trans place
    have first : Reaches (work P visit) (P.putAt t p x, (w, p ++ q) :: (rest.map (Prod.map id (p ++ ·)) ++ stack))
        (P.putAt (P.putAt t p x) (p ++ q) b, rest.map (Prod.map id (p ++ ·)) ++ stack) := builds.reaches here
    rw [Places.putAt_append root, Places.putAt_putAt at_p] at first
    exact first.trans (Fills.reaches at_p fills)

end

variable {w : W} {p : List H} {t u x y z : T} {pushed more : List (W × List H)}

/-- From the root of a tree, with nothing else to do. -/
theorem Builds.settles (builds : Builds P visit w t u) : Settles (work P visit) (t, [(w, [])]) (u, []) :=
  ⟨builds.reaches (p := []) rfl, rfl⟩

theorem Fills.append (first : Fills P visit pushed t x) (second : Fills P visit more x u) :
    Fills P visit (pushed ++ more) t u := by
  induction pushed generalizing t with
  | nil => cases first; exact second
  | cons task rest ih =>
    cases first with
    | cons place builds fills => exact .cons place builds (ih fills)

/-- What is filled in a child is filled in the tree. -/
theorem Fills.inside {h : H} (fills : Fills P visit pushed x y) (child : P.get t h = some z) :
    Fills P visit (pushed.map (Prod.map id (h :: ·))) (P.put t h x) (P.put t h y) := by
  induction pushed generalizing x with
  | nil => cases fills; exact .nil
  | cons task rest ih =>
    cases fills with
    | @cons w q _ _ _ a b place builds fills =>
      have here : P.get (P.put t h x) h = some x := P.get_put x child
      have step : P.putAt (P.put t h x) (h :: q) b = P.put t h (P.putAt x q b) := by
        rw [Places.putAt_cons here, P.put_put _ _ child]
      refine .cons (w := w) (x := a) (y := b) ?_ builds ?_
      · simp only [Places.getAt, here, Option.bind_some]
        exact place
      · rw [step]
        exact ih fills

/-- `φ` adds to a tree without moving or changing the children it has. -/
structure Extends (P : Places T H) (φ : T → T) : Prop where
  get : ∀ {t h s}, P.get t h = some s → P.get (φ t) h = some s
  put : ∀ {t h s} u, P.get t h = some s → P.put (φ t) h u = φ (P.put t h u)

theorem Extends.id : Extends P fun t => t := ⟨fun child => child, fun _ _ => rfl⟩

/-- What is filled below the root is filled in the same way in an extended tree. -/
theorem Fills.extend {φ : T → T} (extends_ : Extends P φ) (fills : Fills P visit pushed t u)
    (below : ∀ task ∈ pushed, task.2 ≠ []) : Fills P visit pushed (φ t) (φ u) := by
  induction pushed generalizing t with
  | nil => cases fills; exact .nil
  | cons task rest ih =>
    cases fills with
    | @cons w q _ _ _ a b place builds fills =>
      cases q with
      | nil => exact absurd rfl (below (w, []) List.mem_cons_self)
      | cons h q =>
        obtain ⟨c, child, inner⟩ := Option.bind_eq_some_iff.1 place
        have child' := extends_.get child
        refine .cons (w := w) (x := a) (y := b) ?_ builds ?_
        · simp only [Places.getAt, child', Option.bind_some]
          exact inner
        · rw [Places.putAt_cons child', extends_.put _ child, ← Places.putAt_cons child]
          exact ih fills fun task mem => below task (List.mem_cons_of_mem _ mem)

/-- A visit that leaves `t` at once, and `u` when what it pushed is done. -/
def Yields (P : Places T H) (visit : W → T → Option (T × List (W × List H))) (r : Option (T × List (W × List H)))
    (t u : T) : Prop :=
  ∃ pushed, r = some (t, pushed) ∧ Fills P visit pushed t u

/-- The same, where nothing is pushed for the root of `t`. -/
def YieldsBelow (P : Places T H) (visit : W → T → Option (T × List (W × List H))) (r : Option (T × List (W × List H)))
    (t u : T) : Prop :=
  ∃ pushed, r = some (t, pushed) ∧ Fills P visit pushed t u ∧ ∀ task ∈ pushed, task.2 ≠ []

theorem YieldsBelow.builds (yields : YieldsBelow P visit (visit w t) x u) : Builds P visit w t u := by
  obtain ⟨pushed, visited, fills, -⟩ := yields
  exact .mk visited fills

/-- A visit that pushes nothing. -/
theorem YieldsBelow.done (t : T) : YieldsBelow P visit (some (t, [])) t t :=
  ⟨[], rfl, .nil, by simp⟩

end Work

section Loop

variable {T H W A : Type} {P : Places T H} {visit : W → T → Option (T × List (W × List H))}

/-- The body of a `for` loop at the elements of a list. -/
def inTurn (body : A → T → Option (T × List (W × List H))) : List A → T → Option (T × List (W × List H))
  | [], t => some (t, [])
  | a :: as, t => do
    let (s, first) ← body a t
    let (u, rest) ← inTurn body as s
    some (u, rest ++ first)

theorem inTurn_snoc {body : A → T → Option (T × List (W × List H))} {as : List A} {a : A} {t s u : T}
    {pushed last : List (W × List H)} (before : inTurn body as t = some (s, pushed)) (step : body a s = some (u, last)) :
    inTurn body (as ++ [a]) t = some (u, last ++ pushed) := by
  induction as generalizing t pushed with
  | nil =>
    obtain ⟨rfl, rfl⟩ : t = s ∧ [] = pushed := by simpa [inTurn] using before
    simp [inTurn, step]
  | cons b as ih =>
    simp only [inTurn, Option.bind_eq_bind, Option.bind_eq_some_iff, Option.some.injEq, Prod.mk.injEq] at before
    obtain ⟨⟨r, first⟩, begin', ⟨s', rest⟩, middle, rfl, rfl⟩ := before
    simp [inTurn, begin', ih middle]

/-- **The loop rule.** `now k` is the tree after `k` passes and `later k` the tree when what they pushed is done. -/
theorem inTurn_yields {body : A → T → Option (T × List (W × List H))} {as : List A} (now later : Nat → T)
    (start : now 0 = later 0)
    (step : ∀ k a, as[k]? = some a → ∃ φ, Extends P φ ∧ YieldsBelow P visit (body a (now k)) (now (k + 1)) (φ (now k)) ∧
      φ (later k) = later (k + 1)) :
    YieldsBelow P visit (inTurn body as (now 0)) (now as.length) (later as.length) := by
  have passes : ∀ k, k ≤ as.length → YieldsBelow P visit (inTurn body (as.take k) (now 0)) (now k) (later k) := by
    intro k
    induction k with
    | zero =>
      intro _
      rw [List.take_zero, ← start]
      exact .done (now 0)
    | succ k ih =>
      intro le
      obtain ⟨pushed, before, fills, below⟩ := ih (by omega)
      obtain ⟨φ, extends_, ⟨last, pass, fills', below'⟩, reached⟩ := step k as[k] (List.getElem?_eq_getElem (by omega))
      refine ⟨last ++ pushed, ?_, ?_, ?_⟩
      · rw [← List.take_append_getElem (by omega : k < as.length)]
        exact inTurn_snoc before pass
      · rw [← reached]
        exact fills'.append (fills.extend extends_ below)
      · intro task mem
        rcases List.mem_append.1 mem with mem | mem
        · exact below' task mem
        · exact below task mem
  simpa using passes as.length (Nat.le_refl _)

end Loop

end GameServer.Lib

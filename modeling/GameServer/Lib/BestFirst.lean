import Mathlib.Data.List.Chain
import Mathlib.Data.List.Infix
import Mathlib.Data.List.Nodup
import Mathlib.Data.Nat.Find
import Mathlib.Data.Set.Insert
import Mathlib.Logic.Relation

/-!
# Searching the best first

A best-first search takes the open way with the least estimate, which is its size and what is guessed for its end. Where the guess
is no lower bound the way it finds need not be a shortest one, also because a place is closed by the first way that gets there.
`Guides` is enough: what joins a shortest way late has been seen to be worse before. `Explored` is the invariant, and `take` the
step that keeps it.
-/

namespace GameServer.Lib

variable {V : Type} {step : V → V → Prop} {est : V → Int} {a b c d u v x y : V} {l m r z s p q t w : List V}

/-- From `a` to `b` in steps, the last place first. -/
structure Way (step : V → V → Prop) (a b : V) (l : List V) : Prop where
  head : l.head? = some b
  last : l.getLast? = some a
  steps : l.IsChain fun d c => step c d

/-- A way, and none is shorter. -/
structure Shortest (step : V → V → Prop) (a b : V) (l : List V) : Prop where
  way : Way step a b l
  least : ∀ l', Way step a b l' → l.length ≤ l'.length

/-- After a place that both pass at the same time, `l` has a larger estimate than `m` has anywhere. -/
def Above (est : V → Int) (l m : List V) : Prop :=
  ∃ u q t c r, (u :: q) <:+ r ∧ (u :: t) <:+ m ∧ q.length = t.length ∧ (c :: r) <:+ l ∧
    ∀ d e, (d :: e) <:+ m → t.length < e.length → e.length + est d < r.length + est c

/-- Where a simple way joins a shortest one late, at `y`, it has been above a shortest one, up to where that joins them. -/
def Guides (step : V → V → Prop) (est : V → Int) (a b : V) : Prop :=
  ∀ z y s p, Shortest step a b (z ++ y :: s) → Way step a b (z ++ y :: p) → (z ++ y :: p).Nodup → s.length < p.length →
    ∃ z₁ z₂ v s', z ++ [y] = z₁ ++ v :: z₂ ∧ Shortest step a b (z₁ ++ v :: s') ∧ Above est (y :: p) (v :: s')

section Ways

theorem Way.suffix (way : Way step a b l) (part : (c :: r) <:+ l) : Way step a c (c :: r) := by
  obtain ⟨z, rfl⟩ := part
  refine ⟨rfl, ?_, way.steps.suffix (List.suffix_append z (c :: r))⟩
  rw [← way.last, List.getLast?_append_of_ne_nil z (List.cons_ne_nil c r)]

/-- Another way to a place of the way. -/
theorem Way.join (way : Way step a b (z ++ x :: s)) (other : Way step a x (x :: p)) : Way step a b (z ++ x :: p) := by
  refine ⟨?_, ?_, ?_⟩
  · rw [← way.head]
    cases z <;> rfl
  · rw [← other.last, List.getLast?_append_of_ne_nil z (List.cons_ne_nil x p)]
  · have first := way.steps
    rw [List.isChain_append] at first ⊢
    exact ⟨first.1, other.steps, fun y last d head => first.2.2 y last d head⟩

theorem Way.cons (way : Way step a c (c :: r)) (next : step c d) : Way step a d (d :: c :: r) :=
  ⟨rfl, by rw [← way.last, List.getLast?_cons_cons], List.isChain_cons_cons.2 ⟨next, way.steps⟩⟩

/-- A way begins at `a`, and goes on by steps. -/
theorem Way.induct {motive : V → List V → Prop} (one : motive a [a])
    (next : ∀ c d r, step c d → motive c (c :: r) → motive d (d :: c :: r)) (way : Way step a b l) : motive b l := by
  induction l generalizing b with
  | nil => cases way.head
  | cons c l ih =>
    obtain rfl : c = b := Option.some.inj way.head
    cases l with
    | nil =>
      obtain rfl : c = a := Option.some.inj way.last
      exact one
    | cons d l =>
      have before := ih (way.suffix (List.suffix_cons c (d :: l)))
      exact next d c l (List.isChain_cons_cons.1 way.steps).1 before

theorem Way.reaches (way : Way step a b l) : Relation.ReflTransGen step a b :=
  way.induct (motive := fun c _ => Relation.ReflTransGen step a c) .refl fun _ _ _ next before => before.tail next

/-- A shortest way is shortest to each of its places. -/
theorem Shortest.suffix_least (shortest : Shortest step a b l) (part : (x :: s) <:+ l) (way : Way step a x (x :: p)) :
    s.length ≤ p.length := by
  obtain ⟨z, rfl⟩ := part
  have least := shortest.least _ (shortest.way.join way)
  simp only [List.length_append, List.length_cons] at least
  omega

theorem Shortest.nodup (shortest : Shortest step a b l) : l.Nodup := by
  have all : ∀ r, r <:+ l → r.Nodup := by
    intro r part
    induction r with
    | nil => exact List.nodup_nil
    | cons x r ih =>
      refine List.nodup_cons.2 ⟨?_, ih ((List.suffix_cons x r).trans part)⟩
      intro again
      obtain ⟨w, s, rfl⟩ := List.append_of_mem again
      have inner : (x :: s) <:+ l := ((List.suffix_append w (x :: s)).trans (List.suffix_cons x _)).trans part
      have least := shortest.suffix_least part (shortest.way.suffix inner)
      simp only [List.length_append, List.length_cons] at least
      omega
  exact all l List.suffix_rfl

theorem Way.exists_shortest (way : Way step a b l) : ∃ m, Shortest step a b m := by
  classical
  have some' : ∃ n, ∃ m, Way step a b m ∧ m.length = n := ⟨_, l, way, rfl⟩
  obtain ⟨m, way', length⟩ := Nat.find_spec some'
  refine ⟨m, way', ?_⟩
  intro l' other
  rw [length]
  exact Nat.find_min' some' ⟨l', other, rfl⟩

/-- The first place of a list that is in another one. -/
theorem exists_first (meets : ∃ x ∈ l, x ∈ m) : ∃ z x w, l = z ++ x :: w ∧ x ∈ m ∧ ∀ y ∈ z, y ∉ m := by
  classical
  obtain ⟨x, mem, mem'⟩ := meets
  have some' : (l.find? fun x => x ∈ m).isSome := List.find?_isSome.2 ⟨x, mem, decide_eq_true mem'⟩
  obtain ⟨x, found⟩ := Option.isSome_iff_exists.1 some'
  obtain ⟨mem', z, w, rfl, before⟩ := List.find?_eq_some_iff_append.1 found
  refine ⟨z, x, w, rfl, of_decide_eq_true mem', ?_⟩
  intro y mem isIn
  have isNot := before y mem
  simp [isIn] at isNot

end Ways

/-- A way that is found, and the size that is written to it. -/
structure Found (V : Type) where
  way : List V
  size : Int

section Search

variable {taken opened opened' : Set (Found V)} {best e f : Found V} {n : Nat}

/-- A place is taken with no larger size than this. -/
def InTime (taken : Set (Found V)) (c : V) (n : Nat) : Prop := ∃ e ∈ taken, e.way.head? = some c ∧ e.size ≤ n

/-- From `n` steps on, a place of the way is taken in time. -/
def Passed (taken : Set (Found V)) (l : List V) (n : Nat) : Prop := ∃ x e, (x :: e) <:+ l ∧ n ≤ e.length ∧ InTime taken x e.length

/-- A way is not above a shortest one up to a place `v`, if that is not passed. -/
def Below (step : V → V → Prop) (est : V → Int) (a b : V) (taken : Set (Found V)) (c : V) (r : List V) : Prop :=
  ∀ z v s u q t, Shortest step a b (z ++ v :: s) → (u :: q) <:+ r → (u :: t) <:+ (v :: s) → q.length = t.length →
    Passed taken (z ++ v :: s) s.length ∨
      ∃ d e, (d :: e) <:+ (v :: s) ∧ t.length < e.length ∧ r.length + est c ≤ e.length + est d

/-- What holds of an open or taken way. -/
structure Traced (step : V → V → Prop) (a : V) (taken : Set (Found V)) (e : Found V) : Prop where
  way : ∃ c, Way step a c e.way
  simple : e.way.Nodup
  size : e.way.length ≤ e.size + 1
  parent : ∀ c d r, e.way = c :: d :: r → ∃ n, ⟨d :: r, n⟩ ∈ taken

/-- What a search has taken and what is open. -/
structure Explored (step : V → V → Prop) (est : V → Int) (a b : V) (taken opened : Set (Found V)) : Prop where
  traced : ∀ e ∈ taken ∪ opened, Traced step a taken e
  timely : ∀ e ∈ taken, ∃ f ∈ taken, f.way.head? = e.way.head? ∧ f.size + 1 ≤ e.way.length
  timely_open : ∀ e ∈ opened, ∃ f ∈ taken ∪ opened, f.way.head? = e.way.head? ∧ f.size + 1 ≤ e.way.length
  next : ∀ e ∈ taken, ∀ c d, e.way.head? = some c → step c d →
    (∃ f ∈ taken, f.way.head? = some d) ∨ ∃ f ∈ opened, f.way.head? = some d ∧ f.size ≤ e.size + 1
  goal : ∀ e ∈ taken, e.way.head? ≠ some b
  below : ∀ c r n, ⟨c :: r, n⟩ ∈ taken → Below step est a b taken c r

/-- What is opened when `best` is taken: a way to an untaken place next to it, or an open one to that place that has been found
with a smaller size. -/
def Opens (step : V → V → Prop) (taken opened : Set (Found V)) (best f : Found V) : Prop :=
  ∃ c d, best.way.head? = some c ∧ step c d ∧ (∀ g ∈ insert best taken, g.way.head? ≠ some d) ∧ f.size = best.size + 1 ∧
    (f.way = d :: best.way ∨ ∃ g ∈ opened, g.way = f.way ∧ g.size < f.size ∧ g.way.head? = some d)

theorem InTime.mono (inTime : InTime taken c n) (more : taken ⊆ opened) : InTime opened c n := by
  obtain ⟨e, mem, rest⟩ := inTime
  exact ⟨e, more mem, rest⟩

theorem Passed.mono (passed : Passed taken l n) (more : taken ⊆ opened) : Passed opened l n := by
  obtain ⟨x, e, part, late, inTime⟩ := passed
  exact ⟨x, e, part, late, inTime.mono more⟩

theorem Below.mono (below : Below step est a b taken c r) (more : taken ⊆ opened) : Below step est a b opened c r := by
  intro z v s u q t shortest part part' same
  rcases below z v s u q t shortest part part' same with passed | less
  · exact .inl (passed.mono more)
  · exact .inr less

/-- What has been above a shortest way has been taken after a place of it. -/
theorem Above.passed (above : Above est l (v :: s)) (shortest : Shortest step a b (z ++ v :: s))
    (below : ∀ c r, (c :: r) <:+ l → Below step est a b taken c r) : Passed taken (z ++ v :: s) s.length := by
  obtain ⟨u, q, t, c, r, part, part', same, part'', larger⟩ := above
  rcases below c r part'' z v s u q t shortest part part' same with passed | ⟨d, e, inside, late, less⟩
  · exact passed
  · exact absurd (larger d e inside late) (Int.not_lt.2 less)

theorem Traced.mono (traced : Traced step a taken e) (more : taken ⊆ opened) : Traced step a opened e := by
  refine ⟨traced.way, traced.simple, traced.size, ?_⟩
  intro c d r is
  obtain ⟨n, mem⟩ := traced.parent c d r is
  exact ⟨n, more mem⟩

/-- A way that goes the same way from `v` on is passed as well. -/
theorem Passed.along {z₁ z₂ s' : List V} (passed : Passed taken (z₁ ++ v :: s') s'.length) (ends : z ++ [x] = z₁ ++ v :: z₂)
    (length : (z₁ ++ v :: s').length = (z ++ x :: s).length) : Passed taken (z ++ x :: s) s.length := by
  obtain ⟨y, e, ⟨w, same⟩, late, inTime⟩ := passed
  rw [List.append_cons z₁ v s'] at same
  have inside : ∃ t, z₁ ++ [v] = w ++ y :: t ∧ e = t ++ s' := by
    rcases List.append_eq_append_iff.1 same with ⟨t, is, rest⟩ | ⟨t, -, rest⟩
    · cases t with
      | nil =>
        have length := congrArg List.length rest
        simp only [List.nil_append, List.length_cons] at length
        omega
      | cons y' t =>
        obtain ⟨rfl, rfl⟩ := List.cons.inj rest
        exact ⟨t, is, rfl⟩
    · have length := congrArg List.length rest
      simp only [List.length_append, List.length_cons] at length
      omega
  obtain ⟨t, is, rfl⟩ := inside
  have whole : z ++ x :: s = w ++ y :: (t ++ z₂ ++ s) := by
    rw [List.append_cons z x s, ends, List.append_cons z₁ v z₂, is]
    simp
  have lengths := congrArg List.length is
  simp only [whole, List.length_append, List.length_cons, List.length_nil] at length lengths late
  have same' : (t ++ z₂ ++ s).length = (t ++ s').length := by
    simp only [List.length_append]
    omega
  refine ⟨y, t ++ z₂ ++ s, ⟨w, whole.symm⟩, ?_, ?_⟩
  · simp only [List.length_append]
    omega
  · rw [same']
    exact inTime

/-- Before anything is taken. -/
theorem Explored.start (a b : V) : Explored step est a b ∅ {⟨[a], 0⟩} := by
  refine ⟨?_, nofun, ?_, nofun, nofun, nofun⟩
  · rintro e (mem | rfl)
    · exact absurd mem (Set.notMem_empty e)
    · exact ⟨⟨a, rfl, rfl, List.isChain_singleton a⟩, List.nodup_singleton a, Int.le_refl 1, nofun⟩
  · rintro e rfl
    exact ⟨_, .inr rfl, rfl, Int.le_refl 1⟩

section Invariant

variable (explored : Explored step est a b taken opened)
include explored

/-- The ways that a taken way goes on from are taken. -/
theorem Explored.ancestor {k : Int} (mem : ⟨w, k⟩ ∈ taken) (part : (c :: r) <:+ w) : ∃ n, ⟨c :: r, n⟩ ∈ taken := by
  induction w generalizing k with
  | nil => exact absurd (List.suffix_nil.1 part) (List.cons_ne_nil c r)
  | cons x w ih =>
    rcases List.suffix_cons_iff.1 part with same | part
    · exact ⟨k, same ▸ mem⟩
    · cases w with
      | nil => exact absurd (List.suffix_nil.1 part) (List.cons_ne_nil c r)
      | cons y w =>
        obtain ⟨n, mem⟩ := (explored.traced _ (.inl mem)).parent x y w rfl
        exact ih mem part

/-- What is taken at a distance is taken in time for it. -/
theorem Explored.inTime {k : Int} (mem : ⟨c :: r, k⟩ ∈ taken) : InTime taken c r.length := by
  obtain ⟨f, mem', head, size⟩ := explored.timely _ mem
  refine ⟨f, mem', head, ?_⟩
  rw [List.length_cons] at size
  omega

/-- Along a shortest way there is an open place after one that is taken in time, if none at the end is taken in time itself. -/
theorem Explored.ahead (guides : Guides step est a b) (shortest : Shortest step a b (z ++ v :: s)) (part : (u :: t) <:+ (v :: s))
    (inTime : InTime taken u t.length) : Passed taken (z ++ v :: s) s.length ∨
      ∃ d e, (d :: e) <:+ (v :: s) ∧ t.length < e.length ∧ ∃ f ∈ opened, f.way.head? = some d ∧ f.size ≤ e.length := by
  induction left : s.length - t.length using Nat.strong_induction_on generalizing u t with
  | _ k ih =>
  subst left
  have whole : (v :: s) <:+ (z ++ v :: s) := List.suffix_append z (v :: s)
  -- a later place that is taken in time
  have later : ∀ x e, (x :: e) <:+ (z ++ v :: s) → t.length < e.length → InTime taken x e.length →
      Passed taken (z ++ v :: s) s.length ∨
        ∃ d e, (d :: e) <:+ (v :: s) ∧ t.length < e.length ∧ ∃ f ∈ opened, f.way.head? = some d ∧ f.size ≤ e.length := by
    intro x e inside late inTime
    by_cases past : s.length ≤ e.length
    · exact .inl ⟨x, e, inside, past, inTime⟩
    · have inside' : (x :: e) <:+ (v :: s) :=
        List.suffix_of_suffix_length_le inside whole (by simp only [List.length_cons]; omega)
      rcases ih (s.length - e.length) (by omega) inside' inTime rfl with passed | ⟨d, e', inside, late', isOpen⟩
      · exact .inl passed
      · exact .inr ⟨d, e', inside, late.trans late', isOpen⟩
  rcases List.suffix_cons_iff.1 part with same | part'
  · obtain ⟨rfl, rfl⟩ := List.cons.inj same
    exact .inl ⟨u, t, whole, Nat.le_refl _, inTime⟩
  obtain ⟨w₀, rfl⟩ := part'
  obtain ⟨w, d, same⟩ : ∃ w d, v :: w₀ = w ++ [d] := (List.eq_nil_or_concat' (v :: w₀)).resolve_left (List.cons_ne_nil v w₀)
  have split : z ++ v :: (w₀ ++ u :: t) = z ++ w ++ [d] ++ u :: t := by
    rw [← List.cons_append, same, List.append_assoc z w]
    simp only [List.append_assoc]
  have edge : step u d := by
    have steps := shortest.way.steps
    rw [split, List.append_assoc _ [d]] at steps
    exact (List.isChain_cons_cons.1 (List.isChain_append.1 steps).2.1).1
  obtain ⟨e, mem, head, size⟩ := inTime
  rcases explored.next e mem u d head edge with ⟨f, mem₀, head⟩ | ⟨f, mem, head, size'⟩
  · -- the next place is taken: where does the way to it leave this one for the last time?
    obtain ⟨c, way⟩ := (explored.traced f (.inl mem₀)).way
    have meets : ∃ x ∈ z ++ w ++ [d], x ∈ f.way := ⟨d, by simp, List.mem_of_head? head⟩
    obtain ⟨z', x, w', is, mem', before⟩ := exists_first meets
    obtain ⟨y, p, from'⟩ := List.append_of_mem mem'
    have part : (x :: p) <:+ f.way := ⟨y, from'.symm⟩
    rw [is, List.append_assoc, List.cons_append] at split
    rw [split] at shortest later ⊢
    obtain ⟨n, mem⟩ := explored.ancestor (k := f.size) mem₀ part
    have late : t.length < (w' ++ u :: t).length := by simp only [List.length_append, List.length_cons]; omega
    by_cases prompt : p.length ≤ (w' ++ u :: t).length
    · obtain ⟨f', mem, head, size⟩ := explored.inTime mem
      exact later x _ (List.suffix_append z' _) late ⟨f', mem, head, by omega⟩
    · -- the way joins this one late, so it has been above one that leads to a place from `x` on
      have joined := shortest.way.join (way.suffix part)
      have simple : (z' ++ x :: p).Nodup := by
        refine List.nodup_append.2 ⟨?_, (explored.traced f (.inl mem₀)).simple.sublist part.sublist, ?_⟩
        · exact shortest.nodup.sublist (List.sublist_append_left z' _)
        · rintro y isIn _ isIn' rfl
          exact before y isIn (part.subset isIn')
      obtain ⟨z₁, z₂, v', s', ends, shortest', above⟩ := guides z' x _ p shortest joined simple (Nat.lt_of_not_le prompt)
      have below : ∀ c r, (c :: r) <:+ (x :: p) → Below step est a b taken c r := by
        intro c r inside
        obtain ⟨n, mem⟩ := explored.ancestor mem inside
        exact explored.below c r n mem
      have lengths := Nat.le_antisymm (shortest'.least _ shortest.way) (shortest.least _ shortest'.way)
      obtain ⟨y, e, inside, late', inTime⟩ := (above.passed shortest' below).along ends lengths
      exact later y e inside (late.trans_le late') inTime
  · refine .inr ⟨d, u :: t, ?_, by simp, f, mem, head, ?_⟩
    · exact ⟨w, by rw [← List.cons_append, same]; simp⟩
    · rw [List.length_cons]
      omega

/-- So are the ways that an open way goes on from. -/
theorem Explored.ancestor_open (mem : best ∈ opened) (is : best.way = c :: r) (part : (u :: q) <:+ r) :
    ∃ n, ⟨u :: q, n⟩ ∈ taken := by
  cases r with
  | nil => exact absurd (List.suffix_nil.1 part) (List.cons_ne_nil u q)
  | cons d r =>
    obtain ⟨n, mem'⟩ := (explored.traced best (.inr mem)).parent c d r is
    exact explored.ancestor mem' part

variable (guides : Guides step est a b) (mem : best ∈ opened)
  (least : ∀ f ∈ opened, ∀ d, f.way.head? = some d → best.size + est c ≤ f.size + est d)
include guides mem least

/-- The open way with the least estimate is not above a shortest one. -/
theorem Explored.below_best (is : best.way = c :: r) : Below step est a b taken c r := by
  intro z v s u q t shortest part part' same
  obtain ⟨n, mem'⟩ := explored.ancestor_open mem is part
  have inTime := explored.inTime mem'
  rw [same] at inTime
  rcases explored.ahead guides shortest part' inTime with passed | ⟨d, e, inside, late, f, mem', head, size⟩
  · exact .inl passed
  · refine .inr ⟨d, e, inside, late, ?_⟩
    have less := least f mem' d head
    have length := (explored.traced best (.inr mem)).size
    rw [is, List.length_cons] at length
    omega

end Invariant

/-- When it has come to the end, it is a shortest one. -/
theorem Explored.shortest (explored : Explored step est a b taken opened) (guides : Guides step est a b) (mem : best ∈ opened)
    (least : ∀ f ∈ opened, ∀ d, f.way.head? = some d → best.size + est b ≤ f.size + est d) (is : best.way = b :: r) :
    Shortest step a b best.way := by
  obtain ⟨c, way⟩ := (explored.traced best (.inr mem)).way
  have simple := (explored.traced best (.inr mem)).simple
  rw [is] at way simple ⊢
  obtain rfl : b = c := Option.some.inj way.head
  refine ⟨way, ?_⟩
  obtain ⟨m, shortest⟩ := way.exists_shortest
  obtain ⟨s, rfl⟩ : ∃ s, m = b :: s := List.head?_eq_some_iff.1 shortest.way.head
  by_contra longer
  have late : s.length < r.length := by
    by_contra prompt
    apply longer
    intro l' other
    have least := shortest.least l' other
    rw [List.length_cons] at least ⊢
    omega
  obtain ⟨z₁, z₂, v, s', ends, shortest', above⟩ := guides [] b s r shortest way simple late
  obtain ⟨rfl, rfl⟩ : z₁ = [] ∧ v = b := by
    cases z₁ with
    | nil => exact ⟨rfl, (List.cons.inj ends).1.symm⟩
    | cons y z₁ => simp at ends
  have below : ∀ c r', (c :: r') <:+ (v :: r) → Below step est a v taken c r' := by
    intro c r' part
    rcases List.suffix_cons_iff.1 part with same | part
    · obtain ⟨rfl, rfl⟩ := List.cons.inj same
      exact explored.below_best guides mem least is
    · obtain ⟨n, mem'⟩ := explored.ancestor_open mem is part
      exact explored.below c r' n mem'
  obtain ⟨x, e, inside, late', f, mem', head, -⟩ := above.passed shortest' below
  have whole : x :: e = v :: s' := inside.eq_of_length_le (by simp only [List.nil_append, List.length_cons]; omega)
  rw [(List.cons.inj whole).1] at head
  exact explored.goal f mem' head

theorem Opens.traced (opens : Opens step taken opened best f) (explored : Explored step est a b taken opened)
    (mem : best ∈ opened) : Traced step a (insert best taken) f := by
  have traced := explored.traced best (.inr mem)
  have length := traced.size
  obtain ⟨c, d, head, edge, fresh, size, extends' | ⟨g, mem', same, smaller, -⟩⟩ := opens
  · obtain ⟨r, is⟩ := List.head?_eq_some_iff.1 head
    obtain ⟨c', way⟩ := traced.way
    rw [is] at extends' way length
    obtain rfl : c = c' := Option.some.inj way.head
    refine ⟨⟨d, ?_⟩, ?_, ?_, ?_⟩
    · rw [extends']
      exact way.cons edge
    · rw [extends', ← is]
      refine List.nodup_cons.2 ⟨?_, traced.simple⟩
      intro again
      obtain ⟨w, q, is'⟩ := List.append_of_mem again
      have part : (d :: q) <:+ c :: r := ⟨w, by rw [← is', is]⟩
      rcases List.suffix_cons_iff.1 part with same | part
      · exact fresh best (Set.mem_insert best taken) (by rw [is, ← same]; rfl)
      · obtain ⟨n, mem'⟩ := explored.ancestor_open mem is part
        exact fresh _ (Set.mem_insert_of_mem best mem') rfl
    · rw [extends', size, List.length_cons]
      omega
    · intro c₁ d₁ r₁ is₁
      rw [extends'] at is₁
      obtain ⟨-, rest⟩ := List.cons.inj is₁
      refine ⟨best.size, Set.mem_insert_iff.2 (.inl ?_)⟩
      rw [← rest, ← is]
  · have traced := (explored.traced g (.inr mem')).mono (Set.subset_insert best taken)
    refine ⟨?_, ?_, ?_, ?_⟩
    · rw [← same]
      exact traced.way
    · rw [← same]
      exact traced.simple
    · have length := traced.size
      rw [same] at length
      omega
    · rw [← same]
      exact traced.parent

/-- `best` itself is timely, or a smaller one to its place has been taken. -/
theorem Explored.timely_best (explored : Explored step est a b taken opened) (mem : best ∈ opened)
    (least : ∀ f ∈ opened, ∀ d, f.way.head? = some d → best.size + est c ≤ f.size + est d) (head : best.way.head? = some c) :
    best.size + 1 ≤ best.way.length ∨ ∃ f ∈ taken, f.way.head? = some c ∧ f.size + 1 ≤ best.way.length := by
  obtain ⟨f, mem' | mem', same, size⟩ := explored.timely_open best mem
  · exact .inr ⟨f, mem', same.trans head, size⟩
  · left
    have less := least f mem' c (same.trans head)
    omega

/-- **One step of the search.** -/
theorem Explored.take (explored : Explored step est a b taken opened) (guides : Guides step est a b) (mem : best ∈ opened)
    (least : ∀ f ∈ opened, ∀ d, f.way.head? = some d → best.size + est c ≤ f.size + est d) (is : best.way = c :: r) (other : c ≠ b)
    (kept : ∀ f ∈ opened, f = best ∨ f ∈ opened') (new : ∀ f ∈ opened', f ∈ opened ∨ Opens step taken opened best f)
    (next : ∀ d, step c d → (∃ f ∈ insert best taken, f.way.head? = some d) ∨
      ∃ f ∈ opened', f.way.head? = some d ∧ f.size ≤ best.size + 1) :
    Explored step est a b (insert best taken) opened' := by
  have more : taken ⊆ insert best taken := Set.subset_insert best taken
  have head : best.way.head? = some c := by rw [is]; rfl
  have still : ∀ f, f ∈ taken ∪ opened → f ∈ insert best taken ∪ opened' := by
    rintro f (mem | mem)
    · exact .inl (more mem)
    · rcases kept f mem with rfl | mem
      · exact .inl (Set.mem_insert f taken)
      · exact .inr mem
  have timely := explored.timely_best mem least head
  refine ⟨?_, ?_, ?_, ?_, ?_, ?_⟩
  · rintro e (mem' | mem')
    · rcases Set.mem_insert_iff.1 mem' with rfl | mem'
      · exact (explored.traced e (.inr mem)).mono more
      · exact (explored.traced e (.inl mem')).mono more
    · rcases new e mem' with mem' | opens
      · exact (explored.traced e (.inr mem')).mono more
      · exact opens.traced explored mem
  · intro e mem'
    rcases Set.mem_insert_iff.1 mem' with rfl | mem'
    · rcases timely with own | ⟨f, mem', same, size⟩
      · exact ⟨e, Set.mem_insert e taken, rfl, own⟩
      · exact ⟨f, more mem', same.trans head.symm, size⟩
    · obtain ⟨f, mem', rest⟩ := explored.timely e mem'
      exact ⟨f, more mem', rest⟩
  · intro e mem'
    rcases new e mem' with mem' | ⟨c', d, head', edge, fresh, size, extends' | ⟨g, mem', same, -, -⟩⟩
    · obtain ⟨f, mem', rest⟩ := explored.timely_open e mem'
      exact ⟨f, still f mem', rest⟩
    · -- the smaller way to the place of `best` has opened a smaller one
      obtain rfl : c = c' := Option.some.inj (head.symm.trans head')
      have length : e.way.length = best.way.length + 1 := by rw [extends', List.length_cons]
      have head : e.way.head? = some d := by rw [extends']; rfl
      rcases timely with own | ⟨f, mem', same, size'⟩
      · exact ⟨e, .inr ‹_›, rfl, by omega⟩
      · rcases explored.next f mem' c d same edge with ⟨g, mem', same⟩ | ⟨g, mem', same, size⟩
        · exact absurd same (fresh g (more mem'))
        · exact ⟨g, still g (.inr mem'), same.trans head.symm, by omega⟩
    · obtain ⟨f, mem', same', size'⟩ := explored.timely_open g mem'
      rw [same] at same' size'
      exact ⟨f, still f mem', same', size'⟩
  · intro e mem' c' d head' edge
    rcases Set.mem_insert_iff.1 mem' with rfl | mem'
    · obtain rfl : c = c' := Option.some.inj (head.symm.trans head')
      exact next d edge
    · rcases explored.next e mem' c' d head' edge with ⟨f, mem', same⟩ | ⟨f, mem', same, size⟩
      · exact .inl ⟨f, more mem', same⟩
      · rcases kept f mem' with rfl | mem'
        · exact .inl ⟨f, Set.mem_insert f taken, same⟩
        · exact .inr ⟨f, mem', same, size⟩
  · intro e mem' same
    rcases Set.mem_insert_iff.1 mem' with rfl | mem'
    · exact other (Option.some.inj (head.symm.trans same))
    · exact explored.goal e mem' same
  · intro c' r' n mem'
    rcases Set.mem_insert_iff.1 mem' with rfl | mem'
    · obtain ⟨rfl, rfl⟩ := List.cons.inj is
      exact (explored.below_best guides mem least rfl).mono more
    · exact (explored.below c' r' n mem').mono more

end Search

end GameServer.Lib

import Mathlib.Data.List.Infix
import Mathlib.Logic.Function.Basic

/-!
# Nested maps

Maps whose values are values or maps again. What stands at a path of keys is a value or a map (`look`), and
that is all there is to a nested map: `look_put` gives the paths of a map with one more entry in terms of the
paths before.
-/

namespace GameServer.Lib

inductive Nested (K V : Type) where
  | leaf (v : V)
  | map (entries : K → Option (Nested K V))

namespace Nested

variable {K V : Type}

/-- What stands at a path. -/
inductive Kind (V : Type) where
  | leaf (v : V)
  | map
  deriving DecidableEq, Repr

def kind : Nested K V → Kind V
  | leaf v => .leaf v
  | map _ => .map

def empty : Nested K V := map fun _ => none

/-- The entry of a key; a value has none. -/
def find : Nested K V → K → Option (Nested K V)
  | leaf _, _ => none
  | map entries, k => entries k

/-- What the keys of a path lead to, one after the other. -/
def atPath : Nested K V → List K → Option (Nested K V)
  | t, [] => some t
  | t, k :: path => (t.find k).bind fun u => u.atPath path

def look (t : Nested K V) (path : List K) : Option (Kind V) := (t.atPath path).map kind

variable {t u : Nested K V} {k : K} {path rest : List K} {v : V}

@[simp] theorem atPath_nil : t.atPath [] = some t := by
  cases t <;> rfl

theorem atPath_cons : t.atPath (k :: path) = (t.find k).bind fun u => u.atPath path := by
  cases t <;> rfl

theorem atPath_append : t.atPath (path ++ rest) = (t.atPath path).bind fun u => u.atPath rest := by
  induction path generalizing t with
  | nil => simp
  | cons k path ih => simp [atPath_cons, ih, Option.bind_assoc]

@[simp] theorem look_nil : t.look [] = some t.kind := by
  simp [look]

theorem look_cons : t.look (k :: path) = (t.find k).bind fun u => u.look path := by
  rw [look, atPath_cons, Option.map_bind]
  rfl

@[simp] theorem look_leaf_cons : (leaf v : Nested K V).look (k :: path) = none := rfl

theorem look_empty : (empty : Nested K V).look path = if path = [] then some .map else none := by
  cases path <;> rfl

/-- A path that leads somewhere does so step by step. -/
theorem look_of_append (found : (t.look (path ++ rest)).isSome) : (t.look path).isSome := by
  unfold look at found ⊢
  rw [atPath_append] at found
  cases here : t.atPath path with
  | none => rw [here] at found; cases found
  | some u => rfl

variable [DecidableEq K]

/-- One entry of the map at the end of the path; `none` where there is no map. -/
def put : Nested K V → List K → K → Nested K V → Option (Nested K V)
  | leaf _, _, _, _ => none
  | map entries, [], k, u => some (map (Function.update entries k (some u)))
  | map entries, j :: path, k, u =>
    (entries j).bind fun t => (t.put path k u).map fun t' => map (Function.update entries j (some t'))

/-- **What stands where after one entry has been put in.** -/
theorem look_put (here : t.look path = some .map) (k : K) (u : Nested K V) : ∃ t', t.put path k u = some t' ∧
    ∀ p, t'.look p = if path ++ [k] <+: p then u.look (p.drop (path.length + 1)) else t.look p := by
  induction path generalizing t with
  | nil =>
    cases t with
    | leaf v => simp [kind] at here
    | map entries =>
      refine ⟨_, rfl, ?_⟩
      intro p
      cases p with
      | nil => simp [kind]
      | cons i p =>
        rw [look_cons, look_cons]
        by_cases same : k = i
        · subst same
          simp [find]
        · simp [find, same, Function.update_of_ne (Ne.symm same)]
  | cons j path ih =>
    cases t with
    | leaf v => simp at here
    | map entries =>
      rw [look_cons] at here
      obtain ⟨inner, found, here⟩ := Option.bind_eq_some_iff.1 here
      obtain ⟨inner', put, looks⟩ := ih here
      have found : entries j = some inner := found
      refine ⟨map (Function.update entries j (some inner')), by simp [Nested.put, found, put], ?_⟩
      intro p
      cases p with
      | nil => simp [kind]
      | cons i p =>
        rw [look_cons, look_cons]
        by_cases same : j = i
        · subst same
          simp [find, looks, found]
        · simp [find, same, Function.update_of_ne (Ne.symm same)]

end Nested

end GameServer.Lib

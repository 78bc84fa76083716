import Mathlib.Data.List.Infix

/-!
# Tries without a mark at the end of a word

A word of a trie is a path to a node without children, so no word is a proper prefix of
another. `word_set` says what replacing one child does to the words.
-/

namespace GameServer.Lib

inductive Trie (K : Type) where
  | node (children : List (K × Trie K))

namespace Trie

variable {K : Type}

def children : Trie K → List (K × Trie K)
  | node children => children

/-- The node without children. -/
def leaf : Trie K := node []

@[simp] theorem children_leaf : (leaf : Trie K).children = [] := rfl

variable [DecidableEq K]

def get (t : Trie K) (k : K) : Option (Trie K) := t.children.lookup k

/-- The trie with this child in place of the one of the same key. -/
def set (t : Trie K) (k : K) (c : Trie K) : Trie K := node ((k, c) :: t.children.filter fun e => e.1 ≠ k)

/-- The word is a path to a node without children. -/
def Word : Trie K → List K → Prop
  | _, [] => False
  | t, k :: ks => ∃ c, t.get k = some c ∧ ((ks = [] ∧ c.children = []) ∨ Word c ks)

variable {t c : Trie K} {j k : K} {ks vs : List K}

@[simp] theorem get_leaf : (leaf : Trie K).get k = none := rfl

@[simp] theorem get_set : (t.set k c).get k = some c := by
  simp [get, set, children]

theorem lookup_filter_ne {α : Type} (l : List (K × α)) (other : j ≠ k) :
    (l.filter fun e => e.1 ≠ k).lookup j = l.lookup j := by
  induction l with
  | nil => rfl
  | cons e l ih =>
    obtain ⟨i, a⟩ := e
    by_cases same : i = k
    · subst same
      rw [List.filter_cons_of_neg (by simp), ih, List.lookup_cons, beq_false_of_ne other]
    · rw [List.filter_cons_of_pos (by simpa using same), List.lookup_cons, List.lookup_cons, ih]

theorem get_set_ne (other : j ≠ k) : (t.set k c).get j = t.get j := by
  show List.lookup j ((k, c) :: t.children.filter fun e => e.1 ≠ k) = t.children.lookup j
  rw [List.lookup_cons, beq_false_of_ne other]
  exact lookup_filter_ne t.children other

theorem children_set_ne : (t.set k c).children ≠ [] := List.cons_ne_nil _ _

@[simp] theorem not_word_nil : ¬ t.Word [] := id

theorem not_word_leaf : ¬ (leaf : Trie K).Word ks := by
  cases ks with
  | nil => exact id
  | cons k ks =>
    rintro ⟨c, got, -⟩
    rw [get_leaf] at got
    cases got

theorem word_cons (got : t.get k = some c) : t.Word (k :: ks) ↔ (ks = [] ∧ c.children = []) ∨ c.Word ks := by
  constructor
  · rintro ⟨d, other, rest⟩
    rw [got] at other
    obtain rfl := Option.some.inj other
    exact rest
  · exact fun rest => ⟨c, got, rest⟩

theorem not_word_cons (missing : t.get k = none) : ¬ t.Word (k :: ks) := by
  rintro ⟨c, got, -⟩
  rw [missing] at got
  cases got

/-- Replacing a child changes the words that begin with its key. -/
theorem word_set : (t.set k c).Word (j :: vs) ↔
    if j = k then (vs = [] ∧ c.children = []) ∨ c.Word vs else t.Word (j :: vs) := by
  split_ifs with same
  · subst same
    exact word_cons get_set
  · unfold Word
    rw [get_set_ne same]

theorem not_word_of_children (empty : t.children = []) : ¬ t.Word ks := by
  cases ks with
  | nil => exact not_word_nil
  | cons k ks =>
    apply not_word_cons
    rw [get, empty]
    rfl

/-- No word begins another one. -/
theorem word_eq_of_prefix (first : t.Word ks) (second : t.Word vs) (start : ks <+: vs) : ks = vs := by
  induction ks generalizing t vs with
  | nil => exact absurd first not_word_nil
  | cons k ks ih =>
    cases vs with
    | nil => exact absurd second not_word_nil
    | cons j vs =>
      obtain ⟨rfl, below⟩ := List.cons_prefix_cons.1 start
      obtain ⟨c, got, first⟩ := first
      rcases first with ⟨rfl, leaf⟩ | first
      · rcases (word_cons got).1 second with ⟨rfl, -⟩ | second
        · rfl
        · exact absurd second (not_word_of_children leaf)
      · rcases (word_cons got).1 second with ⟨-, leaf⟩ | second
        · exact absurd first (not_word_of_children leaf)
        · rw [ih first second below]

end Trie

end GameServer.Lib

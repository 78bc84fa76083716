import Mathlib.Logic.Function.Basic
import Mathlib.Data.List.Basic
import Mathlib.Data.List.Induction

/-!
# Doubly linked lists

The links of a doubly linked list are read and written one pointer at a time. `Linked l L`
says that from the first node on they link the nodes of `L`, each once, and that a node
outside has no predecessor. Pointer surgery is described by what the pointers are in the
end, and `Chain.tie_front` and `Chain.tie_back` carry the parts of the list that only their
ends are tied to other nodes.
-/

namespace GameServer.Lib

/-- The pointers of a doubly linked list, `none` a null pointer. -/
structure Links (ν : Type) where
  first : Option ν
  prev : ν → Option ν
  next : ν → Option ν

namespace Links

variable {ν : Type} {l l' : Links ν} {L P M : List ν} {p p' q q' : Option ν} {a b c n : ν}

def setFirst (l : Links ν) (first : Option ν) : Links ν := { l with first := first }

@[simp] theorem setFirst_first : (l.setFirst p).first = p := rfl
@[simp] theorem setFirst_prev : (l.setFirst p).prev = l.prev := rfl
@[simp] theorem setFirst_next : (l.setFirst p).next = l.next := rfl

section Update

variable [DecidableEq ν]

def setPrev (l : Links ν) (n : ν) (prev : Option ν) : Links ν :=
  { l with prev := Function.update l.prev n prev }

def setNext (l : Links ν) (n : ν) (next : Option ν) : Links ν :=
  { l with next := Function.update l.next n next }

/-- Set the pointer of the node that `o` points to, if it points to one. -/
def setPrevOf (l : Links ν) (o prev : Option ν) : Links ν :=
  match o with
  | some n => l.setPrev n prev
  | none => l

def setNextOf (l : Links ν) (o next : Option ν) : Links ν :=
  match o with
  | some n => l.setNext n next
  | none => l

variable {o v : Option ν} {d : ν}

@[simp] theorem setPrev_first : (l.setPrev n v).first = l.first := rfl
@[simp] theorem setPrev_next : (l.setPrev n v).next = l.next := rfl
@[simp] theorem setNext_first : (l.setNext n v).first = l.first := rfl
@[simp] theorem setNext_prev : (l.setNext n v).prev = l.prev := rfl
@[simp] theorem setPrev_prev : (l.setPrev n v).prev d = if d = n then v else l.prev d := Function.update_apply ..
@[simp] theorem setNext_next : (l.setNext n v).next d = if d = n then v else l.next d := Function.update_apply ..
@[simp] theorem setPrevOf_first : (l.setPrevOf o v).first = l.first := by cases o <;> rfl
@[simp] theorem setPrevOf_next : (l.setPrevOf o v).next = l.next := by cases o <;> rfl
@[simp] theorem setNextOf_first : (l.setNextOf o v).first = l.first := by cases o <;> rfl
@[simp] theorem setNextOf_prev : (l.setNextOf o v).prev = l.prev := by cases o <;> rfl

@[simp] theorem setPrevOf_prev : (l.setPrevOf o v).prev d = if o = some d then v else l.prev d := by
  cases o with
  | none => rfl
  | some n => simp [setPrevOf, eq_comm]

@[simp] theorem setNextOf_next : (l.setNextOf o v).next d = if o = some d then v else l.next d := by
  cases o with
  | none => rfl
  | some n => simp [setNextOf, eq_comm]

end Update

/-- The nodes of `L` are linked one to the other, after `p` and before `q`. -/
def Chain (l : Links ν) : Option ν → List ν → Option ν → Prop
  | _, [], _ => True
  | p, c :: L, q => l.prev c = p ∧ l.next c = L.head?.or q ∧ l.Chain (some c) L q

theorem chain_append : l.Chain p (P ++ M) q ↔ l.Chain p P (M.head?.or q) ∧ l.Chain (P.getLast?.or p) M q := by
  induction P generalizing p with
  | nil => simp [Chain]
  | cons c P ih =>
    rcases P with _ | ⟨d, P⟩
    · simp [Chain, and_assoc]
    · rw [List.cons_append, Chain, Chain, ih, List.head?_append, Option.or_assoc, List.getLast?_cons_cons]
      have last : (d :: P).getLast?.or (some c) = (d :: P).getLast?.or p := by
        rw [List.getLast?_eq_some_getLast (List.cons_ne_nil d P)]
        rfl
      rw [last, and_assoc, and_assoc]

theorem Chain.frame (chain : l.Chain p L q) (prev : ∀ c ∈ L, l'.prev c = l.prev c) (next : ∀ c ∈ L, l'.next c = l.next c) :
    l'.Chain p L q := by
  induction L generalizing p with
  | nil => trivial
  | cons c L ih =>
    obtain ⟨prev₀, next₀, rest⟩ := chain
    refine ⟨(prev c List.mem_cons_self).trans prev₀, (next c List.mem_cons_self).trans next₀, ih rest ?_ ?_⟩
    · exact fun d mem => prev d (List.mem_cons_of_mem c mem)
    · exact fun d mem => next d (List.mem_cons_of_mem c mem)

/-- A part of the list is tied to another node in front. -/
theorem Chain.tie_front (chain : l.Chain p L q) (nodup : L.Nodup) (head : ∀ c, L.head? = some c → l'.prev c = p')
    (prev : ∀ c ∈ L, L.head? ≠ some c → l'.prev c = l.prev c) (next : ∀ c ∈ L, l'.next c = l.next c) :
    l'.Chain p' L q := by
  rcases L with _ | ⟨c, L⟩
  · trivial
  · obtain ⟨-, next₀, rest⟩ := chain
    refine ⟨head c rfl, (next c List.mem_cons_self).trans next₀, rest.frame ?_ ?_⟩
    · intro d mem
      apply prev d (List.mem_cons_of_mem c mem)
      intro same
      obtain rfl : c = d := Option.some.inj same
      exact (List.nodup_cons.1 nodup).1 mem
    · exact fun d mem => next d (List.mem_cons_of_mem c mem)

/-- A part of the list is tied to another node at its end. -/
theorem Chain.tie_back (chain : l.Chain p L q) (nodup : L.Nodup) (prev : ∀ c ∈ L, l'.prev c = l.prev c)
    (last : ∀ c, L.getLast? = some c → l'.next c = q') (next : ∀ c ∈ L, L.getLast? ≠ some c → l'.next c = l.next c) :
    l'.Chain p L q' := by
  induction L generalizing p with
  | nil => trivial
  | cons c L ih =>
    obtain ⟨prev₀, next₀, rest⟩ := chain
    have prev₁ : l'.prev c = p := (prev c List.mem_cons_self).trans prev₀
    rcases L with _ | ⟨d, L⟩
    · exact ⟨prev₁, last c rfl, trivial⟩
    · obtain ⟨once, nodup⟩ := List.nodup_cons.1 nodup
      rw [List.getLast?_cons_cons] at last next
      have next₁ : l'.next c = l.next c := next c List.mem_cons_self fun same => once (List.mem_of_getLast? same)
      refine ⟨prev₁, next₁.trans next₀, ih rest nodup ?_ last ?_⟩
      · exact fun e mem => prev e (List.mem_cons_of_mem c mem)
      · exact fun e mem => next e (List.mem_cons_of_mem c mem)

/-- The pointers link the nodes of `L`, from the first one on. -/
structure Linked (l : Links ν) (L : List ν) : Prop where
  first : l.first = L.head?
  chain : l.Chain none L none
  nodup : L.Nodup
  outside : ∀ c ∉ L, l.prev c = none

/-- The pointers of a node and of the parts of the list around it. -/
theorem Linked.around (linked : l.Linked (P ++ n :: M)) :
    l.Chain none P (some n) ∧ l.prev n = P.getLast? ∧ l.next n = M.head? ∧ l.Chain (some n) M none := by
  obtain ⟨before, prev, next, after⟩ := chain_append.1 linked.chain
  rw [Option.or_none] at prev next
  exact ⟨before, prev, next, after⟩


/-- From `n` on the pointer leads to the nodes of `M`, one after the other, and then nowhere. -/
def Trail (move : ν → Option ν) : ν → List ν → Prop
  | n, [] => move n = none
  | n, m :: M => move n = some m ∧ Trail move m M

theorem trail_next (chain : l.Chain p (n :: M) none) : Trail l.next n M := by
  induction M generalizing p n with
  | nil => exact chain.2.1
  | cons m M ih => exact ⟨chain.2.1, ih chain.2.2⟩

theorem trail_prev (chain : l.Chain none (P ++ n :: M) none) : Trail l.prev n P.reverse := by
  induction P using List.reverseRecOn generalizing n M with
  | nil => exact chain.1
  | append_singleton P c ih =>
    rw [List.append_assoc, List.singleton_append] at chain
    rw [List.reverse_append, List.reverse_singleton, List.singleton_append]
    refine ⟨?_, ih chain⟩
    obtain ⟨-, -, -, after⟩ := chain_append.1 chain
    exact after.1

/-- The pointers of the nodes outside do not matter, but that they have no predecessor. -/
theorem Linked.frame (linked : l.Linked L) (first : l'.first = l.first) (prev : ∀ c ∈ L, l'.prev c = l.prev c)
    (next : ∀ c ∈ L, l'.next c = l.next c) (outside : ∀ c ∉ L, l'.prev c = none) : l'.Linked L :=
  ⟨first.trans linked.first, linked.chain.frame prev next, linked.nodup, outside⟩

section Surgery

variable [DecidableEq ν]

/-- Two neighbours change places. -/
theorem Linked.swap (linked : l.Linked (P ++ a :: b :: M)) (first : l'.first = P.head?.or (some b))
    (prev : ∀ c, l'.prev c =
      if c = b then P.getLast? else if c = a then some b else if M.head? = some c then some a else l.prev c)
    (next : ∀ c, l'.next c =
      if c = b then some a else if c = a then M.head? else if P.getLast? = some c then some b else l.next c) :
    l'.Linked (P ++ b :: a :: M) := by
  have nodup := linked.nodup
  obtain ⟨before, -, -, middle⟩ := linked.around
  obtain ⟨-, -, after⟩ := middle
  simp only [List.nodup_append, List.nodup_cons, List.mem_cons, not_or] at nodup
  obtain ⟨nodupP, ⟨⟨apart, notM⟩, notM', nodupM⟩, across⟩ := nodup
  have notP : ∀ c ∈ P, c ≠ a ∧ c ≠ b ∧ M.head? ≠ some c := by
    intro c mem
    refine ⟨across c mem a (.inl rfl), across c mem b (.inr (.inl rfl)), fun head => ?_⟩
    exact across c mem c (.inr (.inr (List.mem_of_head? head))) rfl
  have notM : ∀ c ∈ M, c ≠ a ∧ c ≠ b ∧ P.getLast? ≠ some c := by
    intro c mem
    refine ⟨fun same => notM (same ▸ mem), fun same => notM' (same ▸ mem), fun last => ?_⟩
    exact across c (List.mem_of_getLast? last) c (.inr (.inr mem)) rfl
  constructor
  · rw [first, List.head?_append, List.head?_cons]
  · rw [chain_append]
    refine ⟨before.tie_back nodupP ?_ ?_ ?_, ?_, ?_, ?_, ?_, after.tie_front nodupM ?_ ?_ ?_⟩
    · intro c mem
      rw [prev, if_neg (notP c mem).2.1, if_neg (notP c mem).1, if_neg (notP c mem).2.2]
    · intro c last
      have mem := List.mem_of_getLast? last
      rw [next, if_neg (notP c mem).2.1, if_neg (notP c mem).1, if_pos last]
      rfl
    · intro c mem last
      rw [next, if_neg (notP c mem).2.1, if_neg (notP c mem).1, if_neg last]
    · rw [prev, if_pos rfl, Option.or_none]
    · rw [next, if_pos rfl]
      rfl
    · rw [prev, if_neg apart, if_pos rfl]
    · rw [next, if_neg apart, if_pos rfl, Option.or_none]
    · intro c head
      have mem := List.mem_of_head? head
      rw [prev, if_neg (notM c mem).2.1, if_neg (notM c mem).1, if_pos head]
    · intro c mem head
      rw [prev, if_neg (notM c mem).2.1, if_neg (notM c mem).1, if_neg head]
    · intro c mem
      rw [next, if_neg (notM c mem).2.1, if_neg (notM c mem).1, if_neg (notM c mem).2.2]
  · exact (List.Perm.append_left P (List.Perm.swap b a M)).nodup_iff.1 linked.nodup
  · intro c out
    simp only [List.mem_append, List.mem_cons, not_or] at out
    obtain ⟨outP, ne, ne', outM⟩ := out
    rw [prev, if_neg ne, if_neg ne', if_neg fun head => outM (List.mem_of_head? head)]
    apply linked.outside
    simp only [List.mem_append, List.mem_cons, not_or]
    exact ⟨outP, ne', ne, outM⟩

/-- A node is put in front. -/
theorem Linked.push (linked : l.Linked L) (out : n ∉ L) (first : l'.first = some n) (clear : l.prev n = none)
    (prev : ∀ c, l'.prev c = if L.head? = some c then some n else l.prev c)
    (next : ∀ c, l'.next c = if c = n then L.head? else l.next c) : l'.Linked (n :: L) := by
  constructor
  · exact first
  · refine ⟨?_, ?_, linked.chain.tie_front linked.nodup ?_ ?_ ?_⟩
    · rw [prev, if_neg fun head => out (List.mem_of_head? head)]
      exact clear
    · rw [next, if_pos rfl, Option.or_none]
    · intro c head
      rw [prev, if_pos head]
    · intro c mem head
      rw [prev, if_neg head]
    · intro c mem
      have apart : c ≠ n := fun same => out (same ▸ mem)
      rw [next, if_neg apart]
  · exact List.nodup_cons.2 ⟨out, linked.nodup⟩
  · intro c notMem
    obtain ⟨-, notMem⟩ := not_or.1 (List.mem_cons.not.1 notMem)
    rw [prev, if_neg fun head => notMem (List.mem_of_head? head)]
    exact linked.outside c notMem

/-- A node is taken out. -/
theorem Linked.unlink (linked : l.Linked (P ++ n :: M)) (first : l'.first = P.head?.or M.head?)
    (prev : ∀ c, l'.prev c = if c = n then none else if M.head? = some c then P.getLast? else l.prev c)
    (next : ∀ c, c ≠ n → l'.next c = if P.getLast? = some c then M.head? else l.next c) : l'.Linked (P ++ M) := by
  have nodup := linked.nodup
  obtain ⟨before, -, -, after⟩ := linked.around
  simp only [List.nodup_append, List.nodup_cons, List.mem_cons] at nodup
  obtain ⟨nodupP, ⟨once, nodupM⟩, across⟩ := nodup
  have notP : ∀ c ∈ P, c ≠ n ∧ M.head? ≠ some c := by
    intro c mem
    exact ⟨across c mem n (.inl rfl), fun head => across c mem c (.inr (List.mem_of_head? head)) rfl⟩
  have notM : ∀ c ∈ M, c ≠ n ∧ P.getLast? ≠ some c := by
    intro c mem
    exact ⟨fun same => once (same ▸ mem), fun last => across c (List.mem_of_getLast? last) c (.inr mem) rfl⟩
  constructor
  · rw [first, List.head?_append]
  · rw [chain_append, Option.or_none, Option.or_none]
    refine ⟨before.tie_back nodupP ?_ ?_ ?_, after.tie_front nodupM ?_ ?_ ?_⟩
    · intro c mem
      rw [prev, if_neg (notP c mem).1, if_neg (notP c mem).2]
    · intro c last
      rw [next c (notP c (List.mem_of_getLast? last)).1, if_pos last]
    · intro c mem last
      rw [next c (notP c mem).1, if_neg last]
    · intro c head
      rw [prev, if_neg (notM c (List.mem_of_head? head)).1, if_pos head]
    · intro c mem head
      rw [prev, if_neg (notM c mem).1, if_neg head]
    · intro c mem
      rw [next c (notM c mem).1, if_neg (notM c mem).2]
  · exact linked.nodup.sublist (List.Sublist.append_left (List.sublist_cons_self n M) P)
  · intro c out
    rw [List.mem_append, not_or] at out
    rw [prev]
    by_cases same : c = n
    · rw [if_pos same]
    · rw [if_neg same, if_neg fun head => out.2 (List.mem_of_head? head)]
      apply linked.outside
      simp only [List.mem_append, List.mem_cons, not_or]
      exact ⟨out.1, same, out.2⟩

end Surgery

end Links

end GameServer.Lib

import GameServer.Coordinates.System
import GameServer.Lib.Sweep

/-!
# One axis

The loops of `update` keep an axis linked and sort it, whatever place the moved node has in
the list, and `insert` and `removeReal` link a node in and out.
-/

namespace GameServer.Coordinates

open Lib (Links)

variable {l : Links Node} {P M : List Node} {n c : Node}

/-- The pointers of two neighbours, and the nodes they are apart from. -/
structure Neighbours (l : Links Node) (P : List Node) (c n : Node) (M : List Node) : Prop where
  prev : l.prev c = P.getLast?
  next : l.next c = some n
  prev' : l.prev n = some c
  next' : l.next n = M.head?
  first : l.first = P.head?.or (some c)
  apart : c ≠ n
  before : ∀ p ∈ P, p ≠ c ∧ p ≠ n
  after : ∀ m ∈ M, m ≠ c ∧ m ≠ n

theorem neighbours (linked : l.Linked (P ++ c :: n :: M)) : Neighbours l P c n M := by
  have nodup := linked.nodup
  obtain ⟨-, prev, next, prev', next', -⟩ := linked.around
  simp only [List.nodup_append, List.nodup_cons, List.mem_cons, not_or] at nodup
  obtain ⟨-, ⟨⟨apart, notM⟩, notM', -⟩, across⟩ := nodup
  rw [Option.or_none] at next'
  refine ⟨prev, next, prev', next', ?_, apart, ?_, ?_⟩
  · rw [linked.first, List.head?_append, List.head?_cons]
  · exact fun p mem => ⟨across p mem c (.inl rfl), across p mem n (.inr (.inl rfl))⟩
  · exact fun m mem => ⟨fun same => notM (same ▸ mem), fun same => notM' (same ▸ mem)⟩

/-- The node is moved down past its neighbour. -/
theorem linked_moveBefore (linked : l.Linked (P ++ c :: n :: M)) : (moveBefore l n c).Linked (P ++ n :: c :: M) := by
  have at' := neighbours linked
  have apart : n ≠ c := Ne.symm at'.apart
  have head : M.head? ≠ some c := fun head => (at'.after c (List.mem_of_head? head)).1 rfl
  rcases P with _ | ⟨f, P⟩
  · have pre : l.prev c = none := at'.prev
    have prev : ∀ d, (moveBefore l n c).prev d =
        if d = n then none else if M.head? = some d then some c else if d = c then some n else l.prev d := by
      simp [moveBefore, pre, at'.prev', at'.next', apart]
    have next : ∀ d, (moveBefore l n c).next d = if d = n then some c else if c = d then M.head? else l.next d := by
      simp [moveBefore, pre, at'.prev', at'.next', apart]
    apply linked.swap
    · simp [moveBefore, pre]
    · grind
    · grind
  · obtain ⟨p, last⟩ : ∃ p, (f :: P).getLast? = some p := ⟨_, List.getLast?_eq_some_getLast (List.cons_ne_nil f P)⟩
    have pre : l.prev c = some p := at'.prev.trans last
    have first : l.first = some f := at'.first
    have notFirst : f ≠ n := (at'.before f List.mem_cons_self).2
    have notLast : n ≠ p := (at'.before p (List.mem_of_getLast? last)).2.symm
    have prev : ∀ d, (moveBefore l n c).prev d =
        if d = n then some p else if M.head? = some d then some c else if d = c then some n else l.prev d := by
      simp [moveBefore, pre, at'.prev', at'.next', apart, first, notFirst, notLast]
    have next : ∀ d, (moveBefore l n c).next d =
        if d = n then some c else if c = d then M.head? else if d = p then some n else l.next d := by
      simp [moveBefore, pre, at'.prev', at'.next', apart, first, notFirst, notLast]
    apply linked.swap
    · simp [moveBefore, pre, first, notFirst]
    · grind
    · grind

/-- The node is moved up past its neighbour. -/
theorem linked_moveAfter (linked : l.Linked (P ++ n :: c :: M)) : (moveAfter l n c).Linked (P ++ c :: n :: M) := by
  have at' := neighbours linked
  have apart := at'.apart
  have head : M.head? ≠ some n := fun head => (at'.after n (List.mem_of_head? head)).1 rfl
  rcases P with _ | ⟨f, P⟩
  · have first : l.first = some n := at'.first
    have pre : l.prev n = none := at'.prev
    have prev : ∀ d, (moveAfter l n c).prev d =
        if d = n then some c else if d = c then none else if M.head? = some d then some n else l.prev d := by
      simp [moveAfter, at'.next', pre, at'.next, first, head, apart]
    have next : ∀ d, (moveAfter l n c).next d = if d = n then M.head? else if d = c then some n else l.next d := by
      simp [moveAfter, at'.next', pre, at'.next, first, head, apart]
    apply linked.swap
    · simp [moveAfter, at'.next', at'.next, first, head, apart]
    · grind
    · grind
  · obtain ⟨p, last⟩ : ∃ p, (f :: P).getLast? = some p := ⟨_, List.getLast?_eq_some_getLast (List.cons_ne_nil f P)⟩
    have first : l.first = some f := at'.first
    have notFirst : f ≠ n := (at'.before f List.mem_cons_self).1
    have notLast : p ≠ c := (at'.before p (List.mem_of_getLast? last)).2
    have pre : l.prev n = some p := at'.prev.trans last
    have prev : ∀ d, (moveAfter l n c).prev d =
        if d = n then some c else if d = c then some p else if M.head? = some d then some n else l.prev d := by
      simp [moveAfter, at'.next', pre, at'.next, first, notFirst, head, apart]
    have next : ∀ d, (moveAfter l n c).next d =
        if d = n then M.head? else if p = d then some c else if d = c then some n else l.next d := by
      simp [moveAfter, at'.next', pre, at'.next, first, notFirst, head, apart]
    apply linked.swap
    · simp [moveAfter, at'.next', at'.next, first, notFirst, head, apart]
    · grind
    · grind

/-- The list without a node of it. -/
theorem erase_middle (nodup : (P ++ n :: M).Nodup) : n ∉ P ++ M ∧ (P ++ n :: M).erase n = P ++ M := by
  have once : n ∉ P ++ M := (List.nodup_cons.1 (List.perm_middle.nodup_iff.1 nodup)).1
  refine ⟨once, ?_⟩
  rw [List.erase_append_right _ fun mem => once (List.mem_append_left M mem), List.erase_cons_head]

namespace Line

variable {s t : Line} {k : Nat} {key : Node → ℚ} {v : ℚ}

/-- The coordinates of all nodes but one are the same. -/
def Others (n : Node) (s t : Line) : Prop := ∀ c, c ≠ n → t.coord c = s.coord c

theorem Others.refl : Others n s s := fun _ _ => rfl

theorem Others.trans {u : Line} (first : Others n s t) (second : Others n t u) : Others n s u :=
  fun c ne => (second c ne).trans (first c ne)

theorem others_setCoord {xx : Coordinate} : Others n s (s.setCoord n xx) := fun _ ne => Function.update_of_ne ne _ _

theorem others_moveNode {xx : Coordinate} : Others n s ((s.setCoord n (s.coord c)).moveNode n xx c) := by
  intro d ne
  rw [moveNode]
  split_ifs
  · exact others_setCoord d ne
  · exact others_setCoord d ne

/-- The first loop passes the neighbours that are greater. -/
theorem linked_passDown (linked : s.toLinks.Linked (P.reverse ++ n :: M)) (keys : ∀ c ∈ P, s.coord c = .num (key c))
    (bound : P.length < k) : ∃ t, passDown n (.num v) k s = some t ∧
      t.toLinks.Linked ((P.dropWhile fun c => v < key c).reverse ++ n :: ((Lib.passedDown key v P).reverse ++ M)) ∧
      Others n s t := by
  obtain ⟨k, rfl⟩ := Nat.exists_eq_succ_of_ne_zero (Nat.ne_of_gt (Nat.zero_lt_of_lt bound))
  induction P generalizing s M k with
  | nil =>
    have prev : s.prev n = none := linked.around.2.1
    refine ⟨s, ?_, linked, .refl⟩
    rw [passDown, prev]
  | cons c P ih =>
    rw [List.reverse_cons, List.append_assoc] at linked
    have at' := neighbours linked
    have here : s.coord c = .num (key c) := keys c List.mem_cons_self
    by_cases above : v < key c
    · -- one step down; the rest of the way is the induction hypothesis
      have linked' : ((s.setCoord n (s.coord c)).moveNode n (.num v) c).toLinks.Linked (P.reverse ++ n :: c :: M) := by
        have greater : (Coordinate.num v).lt ((s.setCoord n (s.coord c)).coord c) = true := by
          rw [others_setCoord c at'.apart, here]
          exact decide_eq_true above
        rw [moveNode, if_pos greater]
        exact linked_moveBefore linked
      have keys' : ∀ d ∈ P, ((s.setCoord n (s.coord c)).moveNode n (.num v) c).coord d = .num (key d) := by
        intro d mem
        rw [others_moveNode d (at'.before d (List.mem_reverse.2 mem)).2]
        exact keys d (List.mem_cons_of_mem c mem)
      obtain ⟨j, rfl⟩ : ∃ j, k = j + 1 := Nat.exists_eq_add_one_of_ne_zero (by simp at bound; omega)
      obtain ⟨t, run, linkedT, others⟩ := ih linked' keys' j (by simp at bound; omega)
      refine ⟨t, ?_, ?_, others_moveNode.trans others⟩
      · rw [passDown, at'.prev']
        simp only [here, Coordinate.lt, above, decide_true, and_true, at'.apart, ne_eq, not_false_eq_true, if_true]
        rw [← here]
        exact run
      · simpa [Lib.passedDown, above] using linkedT
    · refine ⟨s, ?_, ?_, .refl⟩
      · rw [passDown, at'.prev']
        simp [here, Coordinate.lt, above]
      · simpa [Lib.passedDown, above] using linked

/-- The second loop passes the neighbours that are smaller. -/
theorem linked_passUp (linked : s.toLinks.Linked (P.reverse ++ n :: M)) (keys : ∀ c ∈ M, s.coord c = .num (key c))
    (bound : M.length < k) : ∃ t, passUp n (.num v) k s = some t ∧
      t.toLinks.Linked (((Lib.passedUp key v M).reverse ++ P).reverse ++ n :: M.dropWhile fun c => key c < v) ∧
      Others n s t := by
  obtain ⟨k, rfl⟩ := Nat.exists_eq_succ_of_ne_zero (Nat.ne_of_gt (Nat.zero_lt_of_lt bound))
  induction M generalizing s P k with
  | nil =>
    have next : s.next n = none := linked.around.2.2.1
    refine ⟨s, ?_, linked, .refl⟩
    rw [passUp, next]
  | cons c M ih =>
    have at' := neighbours linked
    have here : s.coord c = .num (key c) := keys c List.mem_cons_self
    by_cases below : key c < v
    · have linked' : ((s.setCoord n (s.coord c)).moveNode n (.num v) c).toLinks.Linked ((c :: P).reverse ++ n :: M) := by
        have smaller : ¬ (Coordinate.num v).lt ((s.setCoord n (s.coord c)).coord c) = true := by
          rw [others_setCoord c at'.apart.symm, here]
          exact fun greater => absurd (of_decide_eq_true greater) (not_lt_of_gt below)
        rw [moveNode, if_neg smaller, List.reverse_cons, List.append_assoc]
        exact linked_moveAfter linked
      have keys' : ∀ d ∈ M, ((s.setCoord n (s.coord c)).moveNode n (.num v) c).coord d = .num (key d) := by
        intro d mem
        rw [others_moveNode d (at'.after d mem).1]
        exact keys d (List.mem_cons_of_mem c mem)
      obtain ⟨j, rfl⟩ : ∃ j, k = j + 1 := Nat.exists_eq_add_one_of_ne_zero (by simp at bound; omega)
      obtain ⟨t, run, linkedT, others⟩ := ih linked' keys' j (by simp at bound; omega)
      refine ⟨t, ?_, ?_, others_moveNode.trans others⟩
      · rw [passUp, at'.next]
        simp only [here, Coordinate.lt, below, decide_true, and_true, at'.apart.symm, ne_eq, not_false_eq_true, if_true]
        rw [← here]
        exact run
      · simpa [Lib.passedUp, below] using linkedT
    · refine ⟨s, ?_, ?_, .refl⟩
      · rw [passUp, at'.next]
        simp [here, Coordinate.lt, below]
      · simpa [Lib.passedUp, below] using linked

/-- The pointers link the nodes of `L`, and the coordinates of these are numbers. -/
structure Formed (s : Line) (L : List Node) : Prop where
  linked : s.toLinks.Linked L
  number : ∀ c ∈ L, s.coord c ≠ .nan

/-- The list is sorted by the stored coordinates. -/
def Sorted (s : Line) (L : List Node) : Prop := L.Pairwise fun c d => (s.coord c).le (s.coord d) = true

/-- A coordinate as a number, if it is one. -/
def value : Coordinate → ℚ
  | .nan => 0
  | .num v => v

theorem num_value {x : Coordinate} (number : x ≠ .nan) : x = .num (value x) := by
  cases x with
  | nan => exact absurd rfl number
  | num v => rfl

/-- A node that is in its place ends the rounds. -/
theorem inPlace_of_between (linked : s.toLinks.Linked (P.reverse ++ n :: M))
    (keys : ∀ c ∈ P.reverse ++ M, s.coord c = .num (key c)) (low : ∀ c ∈ P, key c ≤ v) (high : ∀ c ∈ M, v ≤ key c) :
    s.inPlace n (.num v) = true := by
  obtain ⟨-, prev, next, -⟩ := linked.around
  rw [List.getLast?_reverse] at prev
  rw [inPlace, prev, next, Bool.and_eq_true]
  constructor
  · rcases P with _ | ⟨c, P⟩
    · rfl
    · simp only [List.head?_cons, keys c (by simp)]
      exact decide_eq_true (low c List.mem_cons_self)
  · rcases M with _ | ⟨c, M⟩
    · rfl
    · simp only [List.head?_cons, keys c (by simp)]
      exact decide_eq_true (high c List.mem_cons_self)

/-- The rounds of `update` end, with the node in its place. -/
theorem rounds_swept (linked : s.toLinks.Linked (P.reverse ++ n :: M))
    (keys : ∀ c ∈ P.reverse ++ M, s.coord c = .num (key c)) (sorted : (P.reverse ++ M).Pairwise fun c d => key c ≤ key d)
    (bound : (P.reverse ++ n :: M).length < k) :
    ∃ (t : Line) (P' M' : List Node), rounds n (.num v) k k s = some t ∧ t.toLinks.Linked (P'.reverse ++ n :: M') ∧
      Others n s t ∧ t.coord n = .num v ∧ Lib.Swept key v P M P' M' := by
  have swept := Lib.sweep key v sorted
  have apart : ∀ c ∈ P.reverse ++ M, c ≠ n := fun c mem same => (erase_middle linked.nodup).1 (same ▸ mem)
  have down := List.takeWhile_sublist (fun c => decide (v < key c)) (l := P)
  simp only [List.length_append, List.length_reverse, List.length_cons] at bound
  obtain ⟨t, runT, linkedT, othersT⟩ := linked_passDown (v := v) linked
    (fun c mem => keys c (List.mem_append_left M (List.mem_reverse.2 mem))) (k := k) (by omega)
  have keysT : ∀ c ∈ (Lib.passedDown key v P).reverse ++ M, t.coord c = .num (key c) := by
    intro c mem
    have all : c ∈ P.reverse ++ M := (down.reverse.append (List.Sublist.refl M)).subset mem
    rw [othersT c (apart c all)]
    exact keys c all
  obtain ⟨u, runU, linkedU, othersU⟩ := linked_passUp (v := v) linkedT keysT (k := k) (by
    have short := down.length_le
    simp only [List.length_append, List.length_reverse, Lib.passedDown]
    omega)
  have keysU : ∀ c ∈ ((Lib.passedUp key v ((Lib.passedDown key v P).reverse ++ M)).reverse ++
      P.dropWhile fun c => v < key c).reverse ++ ((Lib.passedDown key v P).reverse ++ M).dropWhile fun c => key c < v,
      u.coord c = .num (key c) := by
    intro c mem
    rw [swept.same] at mem
    rw [(othersT.trans othersU) c (apart c mem)]
    exact keys c mem
  have place : u.inPlace n (.num v) = true := inPlace_of_between linkedU keysU swept.low swept.high
  obtain ⟨j, rfl⟩ : ∃ j, k = j + 1 := Nat.exists_eq_add_one_of_ne_zero (by omega)
  refine ⟨u.setCoord n (.num v), _, _, ?_, linkedU, (othersT.trans othersU).trans others_setCoord, ?_, swept⟩
  · rw [rounds, runT, Option.bind_eq_bind, Option.bind_some, runU, Option.bind_some, if_pos place]
    rfl
  · exact Function.update_self ..

theorem le_nan {x : Coordinate} : x.le .nan = false := by cases x <;> rfl

theorem lt_nan {x : Coordinate} : x.lt .nan = false := by cases x <;> rfl

/-- With a coordinate that is no number the rounds never end, unless the node is alone. -/
theorem rounds_nan {bound : Nat} (beside : (s.prev n).isSome = true ∨ (s.next n).isSome = true) :
    rounds n .nan bound k s = none := by
  have away : s.inPlace n .nan = false := by
    rw [inPlace, Bool.and_eq_false_iff]
    rcases beside with prev | next
    · left
      obtain ⟨c, prev⟩ := Option.isSome_iff_exists.1 prev
      rw [prev]
      exact le_nan
    · right
      obtain ⟨c, next⟩ := Option.isSome_iff_exists.1 next
      rw [next]
      rfl
  have down : passDown n .nan bound s = none ∨ passDown n .nan bound s = some s := by
    cases bound with
    | zero => exact .inl rfl
    | succ b =>
      right
      rw [passDown]
      cases s.prev n <;> simp [Coordinate.lt]
  have up : passUp n .nan bound s = none ∨ passUp n .nan bound s = some s := by
    cases bound with
    | zero => exact .inl rfl
    | succ b =>
      right
      rw [passUp]
      cases next : s.next n with
      | none => rfl
      | some c => simp [lt_nan]
  induction k with
  | zero => rfl
  | succ k ih =>
    rw [rounds]
    rcases down with down | down
    · rw [down]
      rfl
    · rcases up with up | up
      · rw [down, Option.bind_eq_bind, Option.bind_some, up]
        rfl
      · rw [down, Option.bind_eq_bind, Option.bind_some, up, Option.bind_some, away]
        exact ih

/-- One axis after a node was moved: the same nodes, and only that node's coordinate has changed. -/
structure Updated (n : Node) (s : Line) (L : List Node) (t : Line) (L' : List Node) : Prop where
  formed : t.Formed L'
  perm : L'.Perm L
  others : Others n s t

variable {L : List Node} {xx : Coordinate}

/-- The list is sorted when the node stands between the others and these are sorted. -/
theorem sorted_between (keys : ∀ c ∈ P ++ M, s.coord c = .num (key c)) (here : s.coord n = .num v)
    (sorted : (P ++ M).Pairwise fun c d => key c ≤ key d) (low : ∀ c ∈ P, key c ≤ v) (high : ∀ c ∈ M, v ≤ key c) :
    s.Sorted (P ++ n :: M) := by
  have le : ∀ {c d}, c ∈ P ++ M → d ∈ P ++ M → key c ≤ key d → (s.coord c).le (s.coord d) = true := by
    intro c d memc memd le
    rw [keys c memc, keys d memd]
    exact decide_eq_true le
  have sorted' := List.pairwise_append.1 (sorted.imp_of_mem le)
  refine List.pairwise_append.2 ⟨sorted'.1, List.pairwise_cons.2 ⟨?_, sorted'.2.1⟩, ?_⟩
  · intro d mem
    rw [here, keys d (List.mem_append_right P mem)]
    exact decide_eq_true (high d mem)
  · intro c mem d mem'
    rcases List.mem_cons.1 mem' with rfl | mem'
    · rw [here, keys c (List.mem_append_left M mem)]
      exact decide_eq_true (low c mem)
    · exact sorted'.2.2 c mem d mem'

theorem rounds_formed (formed : s.Formed L) (mem : n ∈ L) (sorted : s.Sorted (L.erase n)) (number : xx ≠ .nan)
    (bound : L.length < k) : ∃ t L', rounds n xx k k s = some t ∧ Updated n s L t L' ∧ t.Sorted L' := by
  obtain ⟨A, M, rfl⟩ := List.append_of_mem mem
  obtain ⟨P, rfl⟩ : ∃ P, A = P.reverse := ⟨A.reverse, A.reverse_reverse.symm⟩
  obtain ⟨once, rest⟩ := erase_middle formed.linked.nodup
  have keys : ∀ c ∈ P.reverse ++ M, s.coord c = .num (value (s.coord c)) := by
    intro c mem
    apply num_value
    apply formed.number
    exact List.perm_middle.mem_iff.2 (List.mem_cons_of_mem n mem)
  have sorted' : (P.reverse ++ M).Pairwise fun c d => value (s.coord c) ≤ value (s.coord d) := by
    rw [rest] at sorted
    refine sorted.imp_of_mem ?_
    intro c d memc memd le
    rw [keys c memc, keys d memd] at le
    exact of_decide_eq_true le
  obtain ⟨t, P', M', run, linked, others, here, swept⟩ := rounds_swept (v := value xx) formed.linked keys sorted' bound
  rw [← num_value number] at run here
  have keys' : ∀ c ∈ P'.reverse ++ M', t.coord c = .num (value (s.coord c)) := by
    intro c mem
    rw [swept.same] at mem
    have apart : c ≠ n := fun same => once (same ▸ mem)
    rw [others c apart]
    exact keys c mem
  have same : (P'.reverse ++ n :: M').Perm (P.reverse ++ n :: M) := by
    calc (P'.reverse ++ n :: M').Perm (n :: (P'.reverse ++ M')) := List.perm_middle
      _ = n :: (P.reverse ++ M) := by rw [swept.same]
      List.Perm _ (P.reverse ++ n :: M) := List.perm_middle.symm
  refine ⟨t, P'.reverse ++ n :: M', run, ⟨⟨linked, ?_⟩, same, others⟩, ?_⟩
  · intro c mem
    rcases List.mem_cons.1 (List.perm_middle.mem_iff.1 mem) with rfl | mem
    · rw [here]
      exact number
    · rw [keys' c mem]
      nofun
  · refine sorted_between keys' (here.trans (num_value number)) ?_ ?_ swept.high
    · rw [swept.same]
      exact sorted'
    · exact fun c mem => swept.low c (List.mem_reverse.1 mem)

/-- An axis that `update` goes through: sorted in the end, and for a coordinate that has not
changed if it was sorted before. -/
theorem updateChanged_formed (formed : s.Formed L) (mem : n ∈ L) (sorted : s.Sorted (L.erase n)) (number : xx ≠ .nan)
    (bound : L.length < k) : ∃ t L', s.updateChanged n xx k = some t ∧ Updated n s L t L' ∧ t.Sorted (L'.erase n) ∧
      ((xx.eq (s.old n) = true → s.Sorted L) → t.Sorted L') := by
  by_cases same : xx.eq (s.old n) = true
  · refine ⟨s, L, ?_, ⟨formed, .refl L, .refl⟩, sorted, fun before => before same⟩
    rw [updateChanged, if_pos same]
  · obtain ⟨t, L', run, updated, sortedT⟩ := rounds_formed formed mem sorted number bound
    refine ⟨t, L', ?_, updated, sortedT.sublist List.erase_sublist, fun _ => sortedT⟩
    rw [updateChanged, if_neg same]
    exact run

/-- `insert` puts a node in front of the others, with the coordinate of the first. -/
theorem pushFront_formed (formed : s.Formed L) (sorted : s.Sorted L) (some' : L ≠ []) (out : n ∉ L) :
    ∃ t, s.pushFront n = some t ∧ t.Formed (n :: L) ∧ t.Sorted (n :: L) := by
  obtain ⟨f, L, rfl⟩ := List.exists_cons_of_ne_nil some'
  have first : s.first = some f := formed.linked.first
  obtain ⟨t, run, links, coords⟩ : ∃ t, s.pushFront n = some t ∧
      t.toLinks = ((s.setPrev f (some n)).setNext n (some f)).setFirst (some n) ∧
      t.coord = Function.update s.coord n (s.coord f) := ⟨_, by rw [pushFront, first], rfl, rfl⟩
  have here : t.coord n = s.coord f := by rw [coords, Function.update_self]
  have others : ∀ c ∈ f :: L, t.coord c = s.coord c := by
    intro c mem
    have apart : c ≠ n := fun same => out (same ▸ mem)
    rw [coords, Function.update_of_ne apart]
  refine ⟨t, run, ⟨?_, ?_⟩, List.pairwise_cons.2 ⟨?_, ?_⟩⟩
  · rw [links]
    apply formed.linked.push out
    · rfl
    · exact formed.linked.outside n out
    · intro c
      simp [eq_comm]
    · intro c
      simp
  · intro c mem
    rcases List.mem_cons.1 mem with rfl | mem
    · rw [here]
      exact formed.number f List.mem_cons_self
    · rw [others c mem]
      exact formed.number c mem
  · intro d mem
    rw [here, others d mem]
    rcases List.mem_cons.1 mem with rfl | mem
    · rw [num_value (formed.number d List.mem_cons_self)]
      exact decide_eq_true le_rfl
    · exact (List.pairwise_cons.1 sorted).1 d mem
  · refine sorted.imp_of_mem ?_
    intro c d memc memd le
    rw [others c memc, others d memd]
    exact le

/-- `insert` into an empty list. -/
theorem begin_formed (formed : s.Formed []) (number : xx ≠ .nan) : (s.begin n xx).Formed [n] := by
  have here : (s.begin n xx).coord n = xx := Function.update_self ..
  constructor
  · apply formed.linked.push List.not_mem_nil
    · rfl
    · exact formed.linked.outside n List.not_mem_nil
    · intro c
      simp [begin, setLinks, setCoord, setOld, formed.linked.outside c List.not_mem_nil]
    · intro c
      simp [begin, setLinks, setCoord, setOld]
  · intro c mem
    obtain rfl := List.mem_singleton.1 mem
    rw [here]
    exact number

/-- What `unlink` does to the pointers, at the front and further on. -/
theorem unlink_eq (formed : s.Formed (P ++ n :: M)) : ∃ t, s.unlink n = some t ∧ t.coord = s.coord ∧
    t.first = P.head?.or M.head? ∧
    (∀ c, t.prev c = if c = n then none else if M.head? = some c then P.getLast? else s.prev c) ∧
    ∀ c, c ≠ n → t.next c = if P.getLast? = some c then M.head? else s.next c := by
  obtain ⟨-, prev, next, -⟩ := formed.linked.around
  have first : s.first = P.head?.or (some n) := by rw [formed.linked.first, List.head?_append, List.head?_cons]
  rcases P with _ | ⟨f, P⟩
  · have start : s.first = some n := first
    have run : s.unlink n =
        some (s.setLinks ((((s.setFirst (s.next n)).setPrevOf (s.next n) none).setPrev n none).setNext n none)) := by
      rw [unlink, if_pos start]
      rfl
    refine ⟨_, run, rfl, ?_, ?_, ?_⟩
    · simp [setLinks, next]
    · intro c
      simp [setLinks, next]
    · intro c ne
      simp [setLinks, ne]
  · obtain ⟨p, last⟩ : ∃ p, (f :: P).getLast? = some p := ⟨_, List.getLast?_eq_some_getLast (List.cons_ne_nil f P)⟩
    have nodup := List.nodup_append.1 formed.linked.nodup
    have apart : ∀ c ∈ f :: P, c ≠ n := fun c mem => nodup.2.2 c mem n List.mem_cons_self
    have notFirst : f ≠ n := apart f List.mem_cons_self
    have notLast : n ≠ p := (apart p (List.mem_of_getLast? last)).symm
    have start : ¬ s.first = some n := by
      rw [first]
      exact fun same => notFirst (Option.some.inj same)
    have run : s.unlink n = some (s.setLinks
        ((((s.setNext p (s.next n)).setPrevOf (s.next n) (some p)).setPrev n none).setNext n none)) := by
      rw [unlink, if_neg start, prev, last]
      simp [prev, last, notLast]
    refine ⟨_, run, rfl, ?_, ?_, ?_⟩
    · simp [setLinks, first]
    · intro c
      simp [setLinks, next, last]
    · intro c ne
      simp [setLinks, ne, next, last, eq_comm]

/-- `removeReal` takes a node out. -/
theorem unlink_formed (formed : s.Formed L) (mem : n ∈ L) :
    ∃ t, s.unlink n = some t ∧ t.Formed (L.erase n) ∧ t.coord = s.coord := by
  obtain ⟨P, M, rfl⟩ := List.append_of_mem mem
  obtain ⟨-, rest⟩ := erase_middle formed.linked.nodup
  obtain ⟨t, run, coords, first, prev, next⟩ := unlink_eq formed
  refine ⟨t, run, ⟨?_, ?_⟩, coords⟩
  · rw [rest]
    exact formed.linked.unlink first prev next
  · intro c mem
    rw [coords]
    exact formed.number c (List.mem_of_mem_erase mem)

end Line

end GameServer.Coordinates

import GameServer.Containers.RankTemplate
import GameServer.Lib.Top

/-!
# What stands on the ranking list

Records that go out at the trim are forgotten. When no key's records get worse, the list holds the best of all keys nevertheless:
a forgotten record is behind a full list, which no call makes worse, until its key comes again.
-/

namespace GameServer.Containers.RankTemplate

open GameServer.Lib

variable {α κ : Type} [DecidableEq κ]

section Latest

variable (GetKeyValue : α → κ)

/-- The latest records of all keys. -/
def latest (datas : List α) : List α :=
  datas.foldl (fun records data => records.filter (fun record => GetKeyValue record ≠ GetKeyValue data) ++ [data]) []

/-- No record is worse than the one its key had. -/
def NeverWorse (Cmpp : α → α → Prop) (datas : List α) : Prop :=
  ∀ i, (less : i < datas.length) → ∀ old ∈ latest GetKeyValue (datas.take i), GetKeyValue old = GetKeyValue datas[i] →
    ¬ Cmpp old datas[i]

variable {GetKeyValue} {datas : List α} {data a b : α}

theorem mem_latest_concat :
    a ∈ latest GetKeyValue (datas ++ [data]) ↔ a = data ∨ a ∈ latest GetKeyValue datas ∧ GetKeyValue a ≠ GetKeyValue data := by
  simp [latest, or_comm]

/-- A key has one latest record. -/
theorem latest_inj (memA : a ∈ latest GetKeyValue datas) (memB : b ∈ latest GetKeyValue datas)
    (same : GetKeyValue a = GetKeyValue b) : a = b := by
  induction datas using List.reverseRecOn generalizing a b with
  | nil => cases memA
  | append_singleton datas data ih =>
    rw [mem_latest_concat] at memA memB
    rcases memA with rfl | ⟨memA, otherA⟩
    · rcases memB with rfl | ⟨memB, otherB⟩
      · rfl
      · exact absurd same.symm otherB
    · rcases memB with rfl | ⟨memB, otherB⟩
      · exact absurd same otherA
      · exact ih memA memB same

theorem NeverWorse.concat {Cmpp : α → α → Prop} (steady : NeverWorse GetKeyValue Cmpp (datas ++ [data])) :
    NeverWorse GetKeyValue Cmpp datas ∧
      ∀ old ∈ latest GetKeyValue datas, GetKeyValue old = GetKeyValue data → ¬ Cmpp old data := by
  constructor
  · intro i less old mem same
    have now := steady i (by rw [List.length_append]; omega) old
    rw [List.take_append_of_le_length less.le, List.getElem_append_left less] at now
    exact now mem same
  · intro old mem same
    have now := steady datas.length (by rw [List.length_append, List.length_singleton]; omega) old
    rw [List.take_left, List.getElem_concat_length rfl] at now
    exact now mem same

theorem latest_nodup : (latest GetKeyValue datas).Nodup := by
  induction datas using List.reverseRecOn with
  | nil => exact .nil
  | append_singleton datas data ih =>
    rw [latest, List.foldl_concat]
    refine List.Nodup.append (ih.filter _) (List.nodup_singleton data) ?_
    intro a mem new
    rw [List.mem_singleton.1 new] at mem
    simp at mem

end Latest

/-- The records of `Ranks`. -/
def board (r : RankTemplate α κ) : List α := r.Ranks.map r.record

section Steps

variable {S : StdSort} {Cmpp : α → α → Prop} [DecidableRel Cmpp] {GetKeyValue : α → κ} {r s : RankTemplate α κ} {data : α}
  {max_size : Nat}

/-- A record is written over one of the list, or is put at its end. -/
theorem Linked.enter_board (linked : Linked GetKeyValue r) (entered : r.enter GetKeyValue data = some s) :
    (∃ front old back, r.board = front ++ old :: back ∧ GetKeyValue old = GetKeyValue data ∧
        s.board = front ++ data :: back) ∨
      (∀ old ∈ r.board, GetKeyValue old ≠ GetKeyValue data) ∧ s.board = r.board ++ [data] := by
  cases found : r.KeyRanks (GetKeyValue data) with
  | some p =>
    left
    obtain ⟨mem, key⟩ := (linked.listed _ _).1 found
    rw [RankTemplate.enter, found] at entered
    obtain rfl : r.write p data = s := by simpa [linked.live p mem] using entered
    obtain ⟨front, back, split⟩ := List.append_of_mem mem
    have once := linked.once
    rw [split, List.nodup_middle, List.nodup_cons, List.mem_append, not_or] at once
    have aside : ∀ l : List Nat, p ∉ l → l.map (Function.update r.record p data) = l.map r.record := by
      intro l out
      apply List.map_congr_left
      intro q memQ
      exact Function.update_of_ne (ne_of_mem_of_not_mem memQ out) _ _
    refine ⟨front.map r.record, r.record p, back.map r.record, ?_, key, ?_⟩
    · rw [board, split, List.map_append, List.map_cons]
    · show r.Ranks.map (Function.update r.record p data) = _
      rw [split, List.map_append, List.map_cons, Function.update_self, aside front once.1.1, aside back once.1.2]
  | none =>
    right
    rw [RankTemplate.enter, found] at entered
    obtain rfl : r.append GetKeyValue data = s := by simpa using entered
    constructor
    · intro old mem same
      obtain ⟨p, memP, rfl⟩ := List.mem_map.1 mem
      have listed := (linked.listed _ p).2 ⟨memP, same⟩
      rw [found] at listed
      cases listed
    · have new : r.made ∉ r.Ranks := fun mem => lt_irrefl _ (linked.live _ mem).1
      show (r.Ranks ++ [r.made]).map (Function.update r.record r.made data) = _
      rw [List.map_append, List.map_singleton, Function.update_self]
      congr 1
      apply List.map_congr_left
      intro q mem
      exact Function.update_of_ne (ne_of_mem_of_not_mem mem new) _ _

omit [DecidableEq κ] in
theorem sort_board [IsStrictWeakOrder α Cmpp] (sorted : r.sort S Cmpp = some s) :
    s.board.Perm r.board ∧ s.board.Pairwise fun a b => ¬ Cmpp b a := by
  rw [RankTemplate.sort] at sorted
  split_ifs at sorted
  obtain rfl := Option.some.inj sorted
  have weak : IsStrictWeakOrder Nat fun p q => Cmpp (r.record p) (r.record q) :=
    inferInstanceAs (IsStrictWeakOrder Nat (Order.Preimage r.record Cmpp))
  exact ⟨(S.perm _ _).map _, List.pairwise_map.2 (S.sorted (fun p q => Cmpp (r.record p) (r.record q)) r.Ranks)⟩

theorem Linked.trim_board (linked : Linked GetKeyValue r) (trimmed : r.trim GetKeyValue max_size = some s) :
    s.board = r.board.take max_size := by
  rw [RankTemplate.trim] at trimmed
  split_ifs at trimmed with long
  · have whole : Linked GetKeyValue { r with Ranks := r.Ranks.take max_size ++ r.Ranks.drop max_size } := by
      rw [List.take_append_drop]
      exact linked
    obtain ⟨t, removed, same, -⟩ := whole.remove
    rw [removed, Option.map_some] at trimmed
    obtain rfl := Option.some.inj trimmed
    show (r.Ranks.take max_size).map t.record = (r.Ranks.map r.record).take max_size
    rw [same, List.map_take]
  · obtain rfl := Option.some.inj trimmed
    rw [board, List.take_of_length_le]
    rw [List.length_map]
    omega

omit [DecidableEq κ] [DecidableRel Cmpp] in
/-- The records of the list are different ones, so that in their order each is before the next. -/
theorem Linked.board_sorted [IsStrictTotalOrder α Cmpp] (linked : Linked GetKeyValue r)
    (sorted : r.board.Pairwise fun a b => ¬ Cmpp b a) : r.board.Pairwise Cmpp := by
  rw [board, List.pairwise_map] at sorted ⊢
  refine (sorted.and linked.once).imp_of_mem ?_
  rintro p q memP memQ ⟨notAfter, apart⟩
  rcases trichotomous_of Cmpp (r.record p) (r.record q) with before | same | after
  · exact before
  · exact absurd (linked.key_inj memP memQ (congrArg GetKeyValue same)) apart
  · exact absurd after notAfter

/-- One call. -/
theorem Linked.best [IsStrictTotalOrder α Cmpp] {datas : List α} (linked : Linked GetKeyValue r)
    (best : Best Cmpp max_size r.board (· ∈ latest GetKeyValue datas))
    (noWorse : ∀ old ∈ latest GetKeyValue datas, GetKeyValue old = GetKeyValue data → ¬ Cmpp old data) :
    ∃ s, r.OnDataChange S Cmpp GetKeyValue max_size data = some s ∧ Linked GetKeyValue s ∧
      Best Cmpp max_size s.board (· ∈ latest GetKeyValue (datas ++ [data])) := by
  have weak : IsStrictWeakOrder α Cmpp := isStrictWeakOrder_of_isOrderConnected
  obtain ⟨s, entered, linkedS⟩ := Linked.enter linked
  obtain ⟨t, sorted, indexed⟩ := linkedS.sort (S := S) Cmpp
  obtain ⟨u, trimmed, indexedU, -⟩ := indexed.trim max_size
  refine ⟨u, by rw [OnDataChange, entered, Option.bind_some, sorted, Option.bind_some, trimmed], indexedU.toLinked, ?_⟩
  obtain ⟨perm, order⟩ := sort_board sorted
  have order := indexed.toLinked.board_sorted order
  rw [indexed.toLinked.trim_board trimmed]
  rcases linked.enter_board entered with ⟨front, old, back, is, key, is'⟩ | ⟨other, is'⟩
  · rw [is'] at perm
    rw [is] at best
    have mem : old ∈ latest GetKeyValue datas := best.sound old (List.mem_append_right front List.mem_cons_self)
    have replaced : Best Cmpp max_size t.board (· ∈ latest GetKeyValue (datas ++ [data])) := by
      apply best.replace (noWorse old mem key) order perm
      intro a
      rw [mem_latest_concat]
      refine or_congr_right (and_congr_right fun memA => not_congr ⟨fun same => ?_, fun same => same ▸ key⟩)
      exact latest_inj memA mem (same.trans key.symm)
    rw [List.take_of_length_le replaced.short]
    exact replaced
  · rw [is'] at perm
    apply best.push order perm
    · exact fun a memA => mem_latest_concat.2 (.inr ⟨best.sound a memA, other a memA⟩)
    · exact mem_latest_concat.2 (.inl rfl)
    · exact fun a memA => (mem_latest_concat.1 memA).imp_right And.left

end Steps

variable [Inhabited α] (S : StdSort) (Cmpp : α → α → Prop) [DecidableRel Cmpp] (GetKeyValue : α → κ)

/-- The calls with one `max_size` leave the best of the latest records. -/
theorem best_of_run [IsStrictTotalOrder α Cmpp] (N : Nat) (datas : List α) (steady : NeverWorse GetKeyValue Cmpp datas) :
    ∃ r : RankTemplate α κ, Runs (step S Cmpp GetKeyValue) (fun _ _ => True) empty (datas.map fun data => (N, data)) r ∧
      Linked GetKeyValue r ∧ Best Cmpp N r.board (· ∈ latest GetKeyValue datas) := by
  induction datas using List.reverseRecOn with
  | nil => exact ⟨empty, .refl, linked_empty, best_nil⟩
  | append_singleton datas data ih =>
    obtain ⟨steady, noWorse⟩ := steady.concat
    obtain ⟨r, run, linked, best⟩ := ih steady
    obtain ⟨s, next, linkedS, bestS⟩ := linked.best (S := S) best noWorse
    rw [List.map_append, List.map_singleton]
    exact ⟨s, run.snoc trivial next, linkedS, bestS⟩

/-- **The top of the ranking.** As long as no key's records get worse, `Ranks` holds after every call the first `N` of the latest
records of all keys, in their order. -/
theorem ranks_top [IsStrictTotalOrder α Cmpp] (N : Nat) (datas : List α) (steady : NeverWorse GetKeyValue Cmpp datas) :
    ∃ r : RankTemplate α κ, Runs (step S Cmpp GetKeyValue) (fun _ _ => True) empty (datas.map fun data => (N, data)) r ∧
      r.Ranks.map r.record = (S.sort Cmpp (latest GetKeyValue datas)).take N := by
  obtain ⟨r, run, -, best⟩ := best_of_run S Cmpp GetKeyValue N datas steady
  refine ⟨r, run, best.unique ?_⟩
  have weak : IsStrictWeakOrder α Cmpp := isStrictWeakOrder_of_isOrderConnected
  have perm := S.perm Cmpp (latest GetKeyValue datas)
  have sorted : (S.sort Cmpp (latest GetKeyValue datas)).Pairwise Cmpp := by
    refine ((S.sorted Cmpp _).and (perm.nodup_iff.2 latest_nodup)).imp ?_
    rintro a b ⟨notAfter, apart⟩
    rcases trichotomous_of Cmpp a b with before | same | after
    · exact before
    · exact absurd same apart
    · exact absurd after notAfter
  have all : (· ∈ S.sort Cmpp (latest GetKeyValue datas)) = (· ∈ latest GetKeyValue datas) := funext fun a => propext perm.mem_iff
  exact all ▸ best_take sorted

/-- More points are better, and of two with the same the one with the lower number. -/
def Points (a b : Nat × Nat) : Prop := b.2 < a.2 ∨ b.2 = a.2 ∧ a.1 < b.1

instance : DecidableRel Points := fun _ _ => inferInstanceAs (Decidable (_ ∨ _))

/-- The first player goes out, and comes back in front. -/
theorem ranks_top_points : ∃ r : RankTemplate (Nat × Nat) Nat,
    Runs (step StdSort.insertion Points Prod.fst) (fun _ _ => True) empty
      ([(1, 10), (2, 20), (3, 30), (1, 40)].map fun data => (2, data)) r ∧ r.Ranks.map r.record = [(1, 40), (3, 30)] := by
  have total : IsStrictTotalOrder (Nat × Nat) Points := {
    irrefl a := by simp [Points]
    trans a b c first second := by
      rw [Points] at first second ⊢
      omega
    trichotomous a b first second := by
      rw [Points] at first second
      exact Prod.ext (by omega) (by omega) }
  have steady : NeverWorse Prod.fst Points [(1, 10), (2, 20), (3, 30), (1, 40)] := by
    rw [NeverWorse]
    decide
  obtain ⟨r, run, top⟩ := ranks_top StdSort.insertion Points Prod.fst 2 _ steady
  refine ⟨r, run, top.trans ?_⟩
  decide

end GameServer.Containers.RankTemplate

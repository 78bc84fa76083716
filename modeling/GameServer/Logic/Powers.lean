import GameServer.Lib.Bytes
import GameServer.Logic.Components
import Mathlib.Algebra.Order.BigOperators.Group.List

/-!
# The powers of a component

`AddIComponent` adds to a power of a node and cuts the sum off at `maxvalue`, after the addition; `GetTypeCount` adds up what a
node has for itself and what its children have for their parent. Both additions are of 32 bits and wrap around. The stored
value saturates as long as no sum of a stored value and an addend leaves the range, and a count is never negative as long as the
total does not wrap into the lower half (`saturates_iff`).
-/

namespace GameServer.Logic.Powers

open GameServer.Lib

/-- The fields of an `INode` that the powers depend on. `callback` has the conditions; what a callback does comes after the
`AddIComponent` that calls it last. -/
structure INode where
  bActive : Bool
  childnode : List Nat
  components : com_property → Option (Int → Option IComponentPower)
  callback : Int → Option (Int → Bool)

/-- The nodes in memory. -/
abbrev Nodes := Nat → INode

namespace Nodes

variable (w : Nodes) (x : Nat) (type num : Int) (proper : com_property)

/-- What both loops look up in `components`. -/
def find : Option IComponentPower := ((w x).components proper).bind fun powers => powers type

def getTypeCount : Int :=
  if (w x).bActive then
    let count := ((w.find x type proper).map IComponentPower.value).getD 0
    if proper = .self then
      (w x).childnode.foldl (fun count sub => toInt32 (count +
        if (w sub).bActive then ((w.find sub type .parent).map IComponentPower.value).getD 0 else 0)) count
    else count
  else 0

def GetTypeCount : Int :=
  if (w x).bActive then
    let count := ((w.find x type .self).map IComponentPower.value).getD 0
    (w x).childnode.foldl (fun count sub => toInt32 (count + w.getTypeCount sub type .parent)) count
  else 0

/-- `temp[type]`, which is made when it is missing. -/
def power : IComponentPower := (w.find x type proper).getD ⟨type, 0, 0x7FFFFFFF, proper⟩

def setPower (power : IComponentPower) : Nodes :=
  let temp := ((w x).components proper).getD fun _ => none
  Function.update w x { w x with
    components := Function.update (w x).components proper (some (Function.update temp type (some power))) }

/-- `addIComponent`, with the node whose callback it calls. -/
def addIComponent : Nodes × Option Nat :=
  let temp := w.power x type proper
  let value := toInt32 (temp.value + num)
  let value := if value > temp.maxvalue then temp.maxvalue else value
  let w := w.setPower x type proper { temp with type, proper, value }
  if proper = .self then
    match (w x).callback type with
    | some comp => (w, if comp (w.GetTypeCount x type) then some x else none)
    | none => (w, none)
  else (w, none)

def AddIComponent : Nodes × Option Nat := if (w x).bActive then w.addIComponent x type num proper else (w, none)

/-- The nodes after so many additions. -/
def adds (nums : List Int) : Nodes := nums.foldl (fun w num => (w.AddIComponent x type num proper).1) w

end Nodes

section Additions

variable {w : Nodes} {x : Nat} {type num maxvalue : Int} {proper : com_property} {nums pre : List Int}

/-- `addIComponent` stores the power whatever the callback. -/
theorem addIComponent_fst (w : Nodes) (x : Nat) (type num : Int) (proper : com_property) :
    (w.addIComponent x type num proper).1 = w.setPower x type proper { w.power x type proper with
      type, proper, value := min (w.power x type proper).maxvalue (toInt32 ((w.power x type proper).value + num)) } := by
  have cut : ∀ value maxvalue : Int, (if value > maxvalue then maxvalue else value) = min maxvalue value := by
    intro value maxvalue
    split
    · next above => exact (min_eq_left above.le).symm
    · next within => exact (min_eq_right (not_lt.1 within)).symm
  unfold Nodes.addIComponent
  simp only [cut]
  split
  · split <;> rfl
  · rfl

theorem power_setPower (power : IComponentPower) : (w.setPower x type proper power).power x type proper = power := by
  simp [Nodes.power, Nodes.find, Nodes.setPower]

theorem bActive_setPower (power : IComponentPower) (y : Nat) : ((w.setPower x type proper power) y).bActive = (w y).bActive := by
  unfold Nodes.setPower
  by_cases here : y = x
  · subst here
    rw [Function.update_self]
  · rw [Function.update_of_ne here]

/-- **One addition**: the sum wraps around, and then it is cut off. -/
theorem AddIComponent_power (active : (w x).bActive) (num : Int) :
    (w.AddIComponent x type num proper).1.power x type proper = { w.power x type proper with
      type, proper, value := min (w.power x type proper).maxvalue (toInt32 ((w.power x type proper).value + num)) } := by
  rw [Nodes.AddIComponent, if_pos active, addIComponent_fst, power_setPower]

theorem AddIComponent_bActive (num : Int) (y : Nat) : ((w.AddIComponent x type num proper).1 y).bActive = (w y).bActive := by
  unfold Nodes.AddIComponent
  split
  · rw [addIComponent_fst, bActive_setPower]
  · rfl

theorem adds_concat (pre : List Int) (num : Int) :
    w.adds x type proper (pre ++ [num]) = ((w.adds x type proper pre).AddIComponent x type num proper).1 := by
  rw [Nodes.adds, List.foldl_concat]
  rfl

theorem adds_bActive (nums : List Int) (y : Nat) : ((w.adds x type proper nums) y).bActive = (w y).bActive := by
  induction nums using List.reverseRecOn with
  | nil => rfl
  | append_singleton pre num ih => rw [adds_concat, AddIComponent_bActive, ih]

theorem adds_maxvalue (active : (w x).bActive) (nums : List Int) :
    ((w.adds x type proper nums).power x type proper).maxvalue = (w.power x type proper).maxvalue := by
  induction nums using List.reverseRecOn with
  | nil => rfl
  | append_singleton pre num ih =>
    rw [adds_concat, AddIComponent_power]
    · exact ih
    · rwa [adds_bActive]

/-- The value after one addition more. -/
theorem adds_value (active : (w x).bActive) (pre : List Int) (num : Int) :
    ((w.adds x type proper (pre ++ [num])).power x type proper).value =
      min (w.power x type proper).maxvalue (toInt32 (((w.adds x type proper pre).power x type proper).value + num)) := by
  rw [adds_concat, AddIComponent_power, adds_maxvalue active]
  rwa [adds_bActive]

/-- **The stored value saturates** after every addition of a list if and only if no addition leaves the range. -/
theorem adds_saturate_iff (active : (w x).bActive) (start : (w.power x type proper).value = 0)
    (maxvalue' : (w.power x type proper).maxvalue = maxvalue) (low : 0 ≤ maxvalue) (high : maxvalue < 2 ^ 31)
    (range : ∀ num ∈ nums, 0 ≤ num ∧ num < 2 ^ 31) :
    (∀ pre, pre <+: nums → ((w.adds x type proper pre).power x type proper).value = min maxvalue pre.sum) ↔
      ∀ pre num, pre ++ [num] <+: nums → min maxvalue pre.sum + num < 2 ^ 31 := by
  have nonneg : ∀ pre, pre <+: nums → 0 ≤ pre.sum := fun pre sub =>
    List.sum_nonneg fun num mem => (range num (sub.subset mem)).1
  constructor
  · intro saturates pre num sub
    by_contra above
    obtain ⟨num_low, num_high⟩ := range num (sub.subset (by simp))
    have sub' := (List.prefix_append pre [num]).trans sub
    have before := nonneg pre sub'
    have after := saturates _ sub
    rw [adds_value active, maxvalue', saturates pre sub', List.sum_append, List.sum_singleton] at after
    -- the sum has come out negative, and no cut brings it back
    have negative : toInt32 (min maxvalue pre.sum + num) < 0 := by
      rw [toInt32, Int.bmod_def]
      split <;> omega
    omega
  · intro fits pre sub
    induction pre using List.reverseRecOn with
    | nil =>
      rw [List.sum_nil, min_eq_right low]
      exact start
    | append_singleton pre num ih =>
      obtain ⟨num_low, num_high⟩ := range num (sub.subset (by simp))
      have sub' := (List.prefix_append pre [num]).trans sub
      have before := nonneg pre sub'
      rw [adds_value active, maxvalue', ih sub', toInt32_eq (by omega) (fits pre num sub), List.sum_append, List.sum_singleton]
      omega

end Additions

section Counts

variable {w : Nodes} {x : Nat} {type : Int}

/-- What a node contributes: its value, or nothing when it has none. -/
def contribution (w : Nodes) (type : Int) (proper : com_property) (x : Nat) : Int :=
  if (w x).bActive then ((w.find x type proper).map IComponentPower.value).getD 0 else 0

/-- The contributions to a count. -/
def total (w : Nodes) (x : Nat) (type : Int) : Int :=
  contribution w type .self x + ((w x).childnode.map (contribution w type .parent)).sum

theorem toInt32_add (n m : Int) : toInt32 (toInt32 n + m) = toInt32 (n + m) := Int.bmod_add_bmod

/-- A sum that wraps around at every addend wraps around once. -/
theorem foldl_toInt32 (value : Nat → Int) (subs : List Nat) (count : Int) :
    subs.foldl (fun count sub => toInt32 (count + value sub)) (toInt32 count) = toInt32 (count + (subs.map value).sum) := by
  induction subs generalizing count with
  | nil => simp
  | cons sub subs ih => rw [List.foldl_cons, toInt32_add, ih, List.map_cons, List.sum_cons, add_assoc]

theorem toInt32_nonneg_iff (n : Int) : 0 ≤ toInt32 n ↔ n % 2 ^ 32 < 2 ^ 31 := by
  rw [toInt32, Int.bmod_def]
  split <;> omega

theorem GetTypeCount_eq (active : (w x).bActive)
    (self : -2 ^ 31 ≤ contribution w type .self x ∧ contribution w type .self x < 2 ^ 31) :
    w.GetTypeCount x type = toInt32 (total w x type) := by
  have own : ((w.find x type .self).map IComponentPower.value).getD 0 = contribution w type .self x := by
    rw [contribution, if_pos active]
  have child : ∀ sub, w.getTypeCount sub type .parent = contribution w type .parent sub := fun _ => rfl
  rw [Nodes.GetTypeCount, if_pos active]
  simp only [own, child]
  rw [← toInt32_eq self.1 self.2, foldl_toInt32]
  rfl

theorem GetTypeCount_nonneg_iff (active : (w x).bActive)
    (self : 0 ≤ contribution w type .self x ∧ contribution w type .self x < 2 ^ 31) :
    0 ≤ w.GetTypeCount x type ↔ total w x type % 2 ^ 32 < 2 ^ 31 := by
  rw [GetTypeCount_eq active ⟨by omega, self.2⟩, toInt32_nonneg_iff]

/-- **Values saturate and counts are not negative** as long as nothing leaves the range: the value stored for one type and
property is the saturated sum after every addition if and only if no addition to a saturated sum comes to 2^31, and a count is
not negative if and only if the total lies in the lower half of its 2^32. -/
theorem saturates_iff {maxvalue : Int} {proper : com_property} {nums : List Int} (active : (w x).bActive)
    (start : (w.power x type proper).value = 0) (maxvalue' : (w.power x type proper).maxvalue = maxvalue) (low : 0 ≤ maxvalue)
    (high : maxvalue < 2 ^ 31) (range : ∀ num ∈ nums, 0 ≤ num ∧ num < 2 ^ 31) :
    ((∀ pre, pre <+: nums → ((w.adds x type proper pre).power x type proper).value = min maxvalue pre.sum) ↔
      ∀ pre num, pre ++ [num] <+: nums → min maxvalue pre.sum + num < 2 ^ 31) ∧
    ∀ v : Nodes, (v x).bActive → 0 ≤ contribution v type .self x ∧ contribution v type .self x < 2 ^ 31 →
      (0 ≤ v.GetTypeCount x type ↔ total v x type % 2 ^ 32 < 2 ^ 31) :=
  ⟨adds_saturate_iff active start maxvalue' low high range, fun _ active self => GetTypeCount_nonneg_iff active self⟩

/-- A node without powers that has a child with so much for its parent. -/
def family (value : Int) : Nodes := fun x =>
  if x = 0 then ⟨true, [1], fun _ => none, fun _ => none⟩
  else ⟨true, [], fun _ => some fun type => some ⟨type, value, 0x7FFFFFFF, .parent⟩, fun _ => none⟩

theorem saturates_iff_family :
    (∀ pre, pre <+: [5, 7] → (((family 4).adds 0 1 .self pre).power 0 1 .self).value = min 0x7FFFFFFF pre.sum) ∧
      0 ≤ (family 4).GetTypeCount 0 1 := by
  obtain ⟨value, count⟩ := @saturates_iff (family 4) 0 1 _ .self [5, 7] rfl rfl rfl (by decide) (by decide) (by decide)
  refine ⟨value.2 ?_, (count (family 4) rfl (by decide)).2 (by decide)⟩
  intro pre num sub
  have one : (pre = [] ∧ num = 5) ∨ (pre = [5] ∧ num = 7) := by
    rcases pre with _ | ⟨first, _ | ⟨second, pre⟩⟩
    · simpa using sub
    · simpa using sub
    · simp at sub
  obtain ⟨rfl, rfl⟩ | ⟨rfl, rfl⟩ := one <;> decide

/-- One more than the greatest value is the least one, and a child's value with one more makes a negative count. -/
theorem overflows :
    (((family 0).adds 0 1 .self [0x7FFFFFFF, 1]).power 0 1 .self).value = -0x80000000 ∧
      (((family 0x7FFFFFFF).adds 0 1 .self [1]).GetTypeCount 0 1) = -0x80000000 := by
  decide

end Counts

end GameServer.Logic.Powers

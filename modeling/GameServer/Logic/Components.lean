import GameServer.Lib.Forest
import GameServer.Lib.Run
import Mathlib.Data.Finset.Defs
import Mathlib.Data.Set.Finite.Basic

/-!
# The component tree

An `INode` knows its parent and the set of its children, and `AddINode`, `DelINode`, `RemoveSelf` and
`Free` keep the two in step by hand. `toPMessage` walks down the children.

Two steps leave the tree broken. `RemoveSelf` takes the parent from every child but does not clear
`childnode`, as it clears `components` and `pTimer`, so that a node that has children keeps listing
them. `AddINode` asserts `p != this` and no more: a node can be hung under one of its descendants. All
along a run the tree is sound if and only if neither happens (`tree_sound`).
-/

namespace GameServer.Logic

open GameServer.Lib Relation

inductive com_type where
  | nothing
  | head
  | body
  | hand
  | foot
  deriving DecidableEq, Repr

inductive com_property where
  | self
  | parent
  deriving DecidableEq, Repr

structure IComponentPower where
  type : Int
  value : Int
  maxvalue : Int
  proper : com_property
  deriving DecidableEq, Repr

/-- `pTimer` and `callback` are left out; the four operations and `toPMessage` do not look at them. -/
structure INode where
  parent : Option Nat
  childnode : List Nat
  /-- The values of the two levels of maps, in the order of their iteration. -/
  components : List (List IComponentPower)
  type : com_type
  bActive : Bool
  deriving DecidableEq, Repr

def INode.init (type : com_type) : INode := ⟨none, [], [], type, true⟩

inductive pm_icomponent_data where
  | mk (dbid : Nat) (type : com_type) (bactive : Bool) (powers : List IComponentPower) (sub_datas : List pm_icomponent_data)

/-- The nodes in memory, counted as they are created. The memory of a freed node is blank. -/
structure Nodes where
  made : Nat
  freed : List Nat
  node : Nat → INode

namespace Nodes

def init : Nodes := ⟨0, [], fun _ => .init .nothing⟩

/-- `x` points to a node that was created and not freed. -/
def Live (w : Nodes) (x : Nat) : Prop := x < w.made ∧ x ∉ w.freed

instance (w : Nodes) (x : Nat) : Decidable (w.Live x) := inferInstanceAs (Decidable (_ ∧ _))

def setNode (w : Nodes) (x : Nat) (n : INode) : Nodes := { w with node := Function.update w.node x n }

def setParent (w : Nodes) (x : Nat) (parent : Option Nat) : Nodes := w.setNode x { w.node x with parent }

def setChildren (w : Nodes) (x : Nat) (childnode : List Nat) : Nodes := w.setNode x { w.node x with childnode }

def Create (w : Nodes) (type : com_type) : Nodes := { w.setNode w.made (.init type) with made := w.made + 1 }

/-- `y->DelINode(p)`; a function on the nodes has no result where it follows a pointer to a freed one. -/
def DelINode (w : Nodes) (y p : Nat) : Option Nodes :=
  if w.Live y ∧ w.Live p then
    let w := w.setChildren y ((w.node y).childnode.filter fun c => c ≠ p)
    some (if (w.node p).parent = some y then w.setParent p none else w)
  else none

/-- Take `x` from its parent, if it has one. -/
def leave (w : Nodes) (x : Nat) : Option Nodes :=
  match (w.node x).parent with
  | some parent => w.DelINode parent x
  | none => some w

/-- The loop of `RemoveSelf` over the children. -/
def detach (w : Nodes) : List Nat → Option Nodes
  | [] => some w
  | c :: children => if w.Live c then (w.setParent c none).detach children else none

def RemoveSelf (w : Nodes) (x : Nat) : Option Nodes :=
  (w.leave x).bind fun w =>
    let w := w.setNode x { w.node x with components := [] }
    (w.detach (w.node x).childnode).map fun w => w.setNode x { w.node x with bActive := false }

def delete (w : Nodes) (x : Nat) : Nodes := { w.setNode x (.init .nothing) with freed := x :: w.freed }

def Free (w : Nodes) (x : Nat) : Option Nodes := (w.RemoveSelf x).map fun w => w.delete x

/-- `y->AddINode(p)`; a failed assertion is no result. -/
def AddINode (w : Nodes) (y p : Nat) : Option Nodes :=
  if (w.node y).bActive then
    if p = y then none
    else (w.leave p).map fun w => (w.setChildren y ((w.node y).childnode.insert p)).setParent p (some y)
  else some w

/-- `toPMessage` with a bound on the depth of its calls. -/
def toPMessage (w : Nodes) : Nat → Nat → Option pm_icomponent_data
  | 0, _ => none
  | depth + 1, x =>
    if w.Live x then
      let n := w.node x
      (n.childnode.mapM (w.toPMessage depth)).map fun sub_datas => .mk x n.type n.bActive n.components.flatten sub_datas
    else none

inductive Act where
  | create (type : com_type)
  | add (y p : Nat)
  | del (y p : Nat)
  | removeSelf (x : Nat)
  | free (x : Nat)
  /-- What `AddIComponent` and its timers do: the powers of a node become others. -/
  | power (x : Nat) (components : List (List IComponentPower))
  deriving DecidableEq, Repr

/-- The operations are called on nodes not yet freed. -/
def step (w : Nodes) : Act → Option Nodes
  | .create type => some (w.Create type)
  | .add y p => if w.Live y ∧ w.Live p then w.AddINode y p else none
  | .del y p => w.DelINode y p
  | .removeSelf x => if w.Live x then w.RemoveSelf x else none
  | .free x => if w.Live x then w.Free x else none
  | .power x components => if w.Live x then some (w.setNode x { w.node x with components }) else none

def parentOf (w : Nodes) (x : Nat) : Option Nat := (w.node x).parent

structure WellFormed (w : Nodes) : Prop where
  linked : ∀ x y, x ∈ (w.node y).childnode ↔ w.parentOf x = some y
  live : ∀ x y, x ∈ (w.node y).childnode → w.Live x ∧ w.Live y
  acyclic : Acyclic w.parentOf

/-- `toPMessage` comes to its end on `x`. -/
def Prints (w : Nodes) (x : Nat) : Prop := ∃ depth message, ∀ more ≥ depth, w.toPMessage more x = some message

structure Sound (w : Nodes) : Prop extends WellFormed w where
  prints : ∀ x, w.Live x → w.Prints x

/-- A node is hung only under nodes that are not below it, and `RemoveSelf`, where `Free` does not call
it, is for a node without children. -/
def Proper (w : Nodes) : Act → Prop
  | .add y p => (w.node y).bActive = true → ¬ ReflTransGen (Up w.parentOf) y p
  | .removeSelf x => (w.node x).childnode = []
  | _ => True

section Memory

variable {w v u : Nodes} {x y z p : Nat} {n : INode} {parent : Option Nat} {children : List Nat}

/-- What the pointers of `v` are, where no node was created or freed since `w`. -/
structure Moved (w v : Nodes) (parent : Nat → Option Nat) (children : Nat → List Nat) : Prop where
  parentOf : ∀ z, v.parentOf z = parent z
  childnode : ∀ z, (v.node z).childnode = children z
  live : ∀ z, v.Live z ↔ w.Live z

theorem node_setNode : (w.setNode x n).node z = if z = x then n else w.node z := by
  simp [setNode, Function.update_apply]

@[simp] theorem parentOf_setParent : (w.setParent x parent).parentOf z = if z = x then parent else w.parentOf z := by
  simp only [parentOf, setParent, node_setNode]
  split <;> rfl

@[simp] theorem childnode_setParent : ((w.setParent x parent).node z).childnode = (w.node z).childnode := by
  simp only [setParent, node_setNode]
  split
  · next same => rw [same]
  · rfl

@[simp] theorem parentOf_setChildren : (w.setChildren x children).parentOf z = w.parentOf z := by
  simp only [parentOf, setChildren, node_setNode]
  split
  · next same => rw [same]
  · rfl

@[simp] theorem childnode_setChildren :
    ((w.setChildren x children).node z).childnode = if z = x then children else (w.node z).childnode := by
  simp only [setChildren, node_setNode]
  split <;> rfl

theorem Moved.refl (w : Nodes) : Moved w w w.parentOf fun z => (w.node z).childnode := ⟨fun _ => rfl, fun _ => rfl, fun _ => Iff.rfl⟩

theorem delINode_moved (liveY : w.Live y) (liveP : w.Live p) : ∃ v, w.DelINode y p = some v ∧
    Moved w v (fun z => if z = p ∧ w.parentOf p = some y then none else w.parentOf z)
      (fun z => if z = y then (w.node y).childnode.filter fun c => c ≠ p else (w.node z).childnode) := by
  refine ⟨_, if_pos ⟨liveY, liveP⟩, ?_⟩
  by_cases child : w.parentOf p = some y
  · have child' : ((w.setChildren y ((w.node y).childnode.filter fun c => c ≠ p)).node p).parent = some y := by
      rw [← parentOf, parentOf_setChildren, child]
    rw [if_pos child']
    exact ⟨by simp [child], by simp, fun _ => Iff.rfl⟩
  · have child' : ((w.setChildren y ((w.node y).childnode.filter fun c => c ≠ p)).node p).parent ≠ some y := by
      rw [← parentOf, parentOf_setChildren]
      exact child
    rw [if_neg child']
    exact ⟨by simp [child], by simp, fun _ => Iff.rfl⟩

theorem detach_moved (live : ∀ c ∈ children, w.Live c) : ∃ v, w.detach children = some v ∧
    Moved w v (fun z => if z ∈ children then none else w.parentOf z) fun z => (w.node z).childnode := by
  induction children generalizing w with
  | nil => exact ⟨w, rfl, by simpa using Moved.refl w⟩
  | cons c children ih =>
    obtain ⟨v, detached, moved⟩ := @ih (w.setParent c none) fun d mem => live d (List.mem_cons_of_mem c mem)
    refine ⟨v, ?_, ?_, ?_, moved.live⟩
    · rw [detach, if_pos (live c List.mem_cons_self), detached]
    · intro z
      rw [moved.parentOf, parentOf_setParent]
      by_cases same : z = c <;> simp [same]
    · intro z
      rw [moved.childnode, childnode_setParent]

end Memory

section Trees

variable {w v : Nodes} {x y z p c : Nat}

theorem WellFormed.ne (wf : WellFormed w) (up : w.parentOf x = some y) : x ≠ y := by
  rintro rfl
  exact wf.acyclic x (.single up)

/-- A node without its parent is in no set of children. -/
theorem WellFormed.leave (wf : WellFormed w) : ∃ v, w.leave x = some v ∧
    Moved w v (fun z => if z = x then none else w.parentOf z) fun z => (w.node z).childnode.filter fun c => c ≠ x := by
  have away : ∀ z, w.parentOf x ≠ some z → ((w.node z).childnode.filter fun c => c ≠ x) = (w.node z).childnode := by
    intro z other
    apply List.filter_eq_self.2
    intro c mem
    have ne : c ≠ x := by
      rintro rfl
      exact other ((wf.linked _ _).1 mem)
    simpa using ne
  cases up : w.parentOf x with
  | none =>
    refine ⟨w, ?_, ?_, ?_, fun _ => Iff.rfl⟩
    · rw [parentOf] at up
      rw [Nodes.leave, up]
    · intro z
      by_cases same : z = x
      · rw [if_pos same, same, up]
      · rw [if_neg same]
    · intro z
      exact (away z (by rw [up]; simp)).symm
  | some y =>
    obtain ⟨liveX, liveY⟩ := wf.live x y ((wf.linked x y).2 up)
    obtain ⟨v, deleted, moved⟩ := delINode_moved liveY liveX
    refine ⟨v, ?_, ?_, ?_, moved.live⟩
    · rw [parentOf] at up
      rw [Nodes.leave, up]
      exact deleted
    · intro z
      rw [moved.parentOf]
      simp [up]
    · intro z
      rw [moved.childnode]
      by_cases same : z = y
      · rw [if_pos same, same]
      · rw [if_neg same, away z]
        rw [up]
        exact fun eq => same (Option.some.inj eq).symm

/-- Trees that move their pointers in step stay in step. -/
theorem WellFormed.of_moved {parent : Nat → Option Nat} {children : Nat → List Nat} (moved : Moved w v parent children)
    (linked : ∀ x y, x ∈ children y ↔ parent x = some y) (live : ∀ x y, parent x = some y → w.Live x ∧ w.Live y)
    (acyclic : Acyclic parent) : WellFormed v := by
  have same : v.parentOf = parent := funext moved.parentOf
  refine ⟨?_, ?_, same ▸ acyclic⟩
  · intro x y
    rw [moved.childnode, moved.parentOf]
    exact linked x y
  · intro x y mem
    rw [moved.childnode, linked] at mem
    rw [moved.live, moved.live]
    exact live x y mem

/-- Some nodes lose their parent. -/
theorem WellFormed.drop {parent : Nat → Option Nat} {children : Nat → List Nat} (wf : WellFormed w)
    (moved : Moved w v parent children) (linked : ∀ x y, x ∈ children y ↔ parent x = some y)
    (le : ∀ x y, parent x = some y → w.parentOf x = some y) : WellFormed v :=
  .of_moved moved linked (fun x y up => wf.live x y ((wf.linked x y).2 (le x y up))) (wf.acyclic.mono le)

theorem WellFormed.delINode (wf : WellFormed w) (next : w.DelINode y p = some v) : WellFormed v := by
  obtain ⟨⟨liveY, liveP⟩, -⟩ := Option.ite_none_right_eq_some.1 next
  obtain ⟨u, deleted, moved⟩ := delINode_moved liveY liveP
  obtain rfl := Option.some.inj (next.symm.trans deleted)
  apply wf.drop moved
  · intro x z
    have linked := wf.linked x z
    by_cases sameX : x = p <;> by_cases sameZ : z = y <;> simp_all
  · intro x z up
    split at up
    · cases up
    · exact up

theorem WellFormed.removeSelf_moved (wf : WellFormed w) : ∃ v, w.RemoveSelf x = some v ∧
    Moved w v (fun z => if z = x ∨ w.parentOf z = some x then none else w.parentOf z)
      fun z => (w.node z).childnode.filter fun c => c ≠ x := by
  obtain ⟨u, left, moved⟩ := wf.leave (x := x)
  let u' := u.setNode x { u.node x with components := [] }
  have same : Moved u u' u.parentOf fun z => (u.node z).childnode := by
    refine ⟨fun z => ?_, fun z => ?_, fun _ => Iff.rfl⟩
    · show (u'.node z).parent = (u.node z).parent
      rw [node_setNode]
      split
      · next at_x => rw [at_x]
      · rfl
    · rw [node_setNode]
      split
      · next at_x => rw [at_x]
      · rfl
  have children : (u'.node x).childnode = (w.node x).childnode := by
    rw [same.childnode, moved.childnode]
    apply List.filter_eq_self.2
    intro c mem
    simpa using wf.ne ((wf.linked c x).1 mem)
  have live : ∀ c ∈ (u'.node x).childnode, u'.Live c := by
    intro c mem
    rw [children] at mem
    exact (moved.live c).2 (wf.live c x mem).1
  obtain ⟨t, detached, moved'⟩ := detach_moved live
  refine ⟨t.setNode x { t.node x with bActive := false }, ?_, ?_, ?_, fun z => (moved'.live z).trans (moved.live z)⟩
  · rw [RemoveSelf, left, Option.bind_some]
    show (u'.detach (u'.node x).childnode).map _ = _
    rw [detached, Option.map_some]
  · intro z
    have kept : (t.setNode x { t.node x with bActive := false }).parentOf z = t.parentOf z := by
      rw [parentOf, node_setNode]
      split
      · next at_x => rw [at_x, parentOf]
      · rfl
    rw [kept, moved'.parentOf, children, same.parentOf, moved.parentOf]
    by_cases at_x : z = x <;> simp [at_x, wf.linked]
  · intro z
    rw [node_setNode]
    split
    · next at_x =>
      show (t.node x).childnode = _
      rw [at_x, moved'.childnode, same.childnode, moved.childnode]
    · rw [moved'.childnode, same.childnode, moved.childnode]

theorem WellFormed.removeSelf (wf : WellFormed w) (none : (w.node x).childnode = []) (next : w.RemoveSelf x = some v) :
    WellFormed v := by
  obtain ⟨u, removed, moved⟩ := wf.removeSelf_moved (x := x)
  obtain rfl := Option.some.inj (next.symm.trans removed)
  apply wf.drop moved
  · intro c z
    have linked := wf.linked c z
    have leaf : w.parentOf c ≠ some x := by
      intro up
      have mem := (wf.linked c x).2 up
      rw [none] at mem
      cases mem
    by_cases same : c = x <;> simp_all
  · intro c z up
    split at up
    · cases up
    · exact up

/-- A node that has children goes on to list them. -/
theorem WellFormed.not_removeSelf (wf : WellFormed w) (some' : (w.node x).childnode ≠ []) (next : w.RemoveSelf x = some v) :
    ¬ WellFormed v := by
  obtain ⟨u, removed, moved⟩ := wf.removeSelf_moved (x := x)
  obtain rfl := Option.some.inj (next.symm.trans removed)
  intro wf'
  obtain ⟨c, mem⟩ := List.exists_mem_of_ne_nil _ some'
  have up := (wf.linked c x).1 mem
  have listed : c ∈ (v.node x).childnode := by
    rw [moved.childnode]
    exact List.mem_filter.2 ⟨mem, by simpa using wf.ne up⟩
  have up' := (wf'.linked c x).1 listed
  rw [moved.parentOf, if_pos (.inr up)] at up'
  cases up'

/-- The memory of the node goes with its list of children. -/
theorem WellFormed.free (wf : WellFormed w) (next : w.Free x = some v) : WellFormed v := by
  obtain ⟨u, removed, rfl⟩ := Option.map_eq_some_iff.1 next
  obtain ⟨u', removed', moved⟩ := wf.removeSelf_moved (x := x)
  obtain rfl := Option.some.inj (removed.symm.trans removed')
  have blank : ∀ z, (u.delete x).parentOf z = if z = x ∨ w.parentOf z = some x then none else w.parentOf z := by
    intro z
    show ((u.setNode x (.init .nothing)).node z).parent = _
    rw [node_setNode]
    by_cases at_x : z = x
    · simp [at_x, INode.init]
    · rw [if_neg at_x, ← parentOf, moved.parentOf]
  have empty : ∀ z, ((u.delete x).node z).childnode = if z = x then [] else (w.node z).childnode.filter fun c => c ≠ x := by
    intro z
    show ((u.setNode x (.init .nothing)).node z).childnode = _
    rw [node_setNode]
    by_cases at_x : z = x
    · simp [at_x, INode.init]
    · rw [if_neg at_x, if_neg at_x, moved.childnode]
  have linked : ∀ c z, c ∈ (if z = x then [] else (w.node z).childnode.filter fun c => c ≠ x) ↔
      (if c = x ∨ w.parentOf c = some x then none else w.parentOf c) = some z := by
    intro c z
    rw [Option.ite_none_left_eq_some]
    by_cases at_x : z = x
    · rw [if_pos at_x, at_x]
      constructor
      · intro mem
        cases mem
      · rintro ⟨other, up⟩
        exact absurd (.inr up) other
    · rw [if_neg at_x, List.mem_filter, wf.linked, decide_eq_true_eq]
      refine and_comm.trans (and_congr_left fun up => ?_)
      rw [not_or, up]
      exact (and_iff_left fun same => at_x (Option.some.inj same)).symm
  refine ⟨fun c z => ?_, fun c z mem => ?_, ?_⟩
  · rw [blank, empty]
    exact linked c z
  · rw [empty] at mem
    have up := (linked c z).1 mem
    split at mem
    · cases mem
    · next other =>
      obtain ⟨mem, ne⟩ := List.mem_filter.1 mem
      obtain ⟨liveC, liveZ⟩ := wf.live c z mem
      obtain ⟨madeC, keptC⟩ := (moved.live c).2 liveC
      obtain ⟨madeZ, keptZ⟩ := (moved.live z).2 liveZ
      refine ⟨⟨madeC, ?_⟩, ⟨madeZ, ?_⟩⟩
      · exact fun gone => (List.mem_cons.1 gone).elim (by simpa using ne) keptC
      · exact fun gone => (List.mem_cons.1 gone).elim other keptZ
  · apply wf.acyclic.mono
    intro c z up
    rw [blank] at up
    split at up
    · cases up
    · exact up

theorem WellFormed.addINode_moved (wf : WellFormed w) (active : (w.node y).bActive = true) (ne : p ≠ y) :
    ∃ v, w.AddINode y p = some v ∧ Moved w v (fun z => if z = p then some y else w.parentOf z) fun z =>
      if z = y then ((w.node y).childnode.filter fun c => c ≠ p).insert p else (w.node z).childnode.filter fun c => c ≠ p := by
  obtain ⟨u, left, moved⟩ := wf.leave (x := p)
  refine ⟨(u.setChildren y ((u.node y).childnode.insert p)).setParent p (some y), ?_, ?_, ?_, moved.live⟩
  · rw [AddINode, if_pos active, if_neg ne, left, Option.map_some]
  · intro z
    rw [parentOf_setParent, parentOf_setChildren, moved.parentOf]
    split <;> rfl
  · intro z
    rw [childnode_setParent, childnode_setChildren, moved.childnode, moved.childnode]

theorem WellFormed.addINode (wf : WellFormed w) (live : w.Live y ∧ w.Live p)
    (apart : (w.node y).bActive = true → ¬ ReflTransGen (Up w.parentOf) y p) (next : w.AddINode y p = some v) :
    WellFormed v := by
  by_cases active : (w.node y).bActive = true
  · have ne : p ≠ y := by
      rintro rfl
      exact apart active .refl
    obtain ⟨u, added, moved⟩ := wf.addINode_moved active ne
    obtain rfl := Option.some.inj (next.symm.trans added)
    refine .of_moved moved ?_ ?_ ?_
    · intro x z
      by_cases hung : x = p
      · by_cases under : z = y
        · simp [hung, under]
        · simp [hung, under, Ne.symm under]
      · have linked := wf.linked x z
        by_cases under : z = y <;> simp_all
    · intro x z up
      split at up
      · next same =>
        obtain rfl := Option.some.inj up
        rw [same]
        exact live.symm
      · exact wf.live x z ((wf.linked x z).2 up)
    · exact wf.acyclic.hang (fun _ other => if_neg other) (if_pos rfl) (apart active)
  · rw [AddINode, if_neg active] at next
    obtain rfl := Option.some.inj next
    exact wf

theorem WellFormed.not_addINode (wf : WellFormed w) (active : (w.node y).bActive = true)
    (above : ReflTransGen (Up w.parentOf) y p) (next : w.AddINode y p = some v) : ¬ WellFormed v := by
  have ne : p ≠ y := by
    rintro rfl
    rw [AddINode, if_pos active, if_pos rfl] at next
    cases next
  obtain ⟨u, added, moved⟩ := wf.addINode_moved active ne
  obtain rfl := Option.some.inj (next.symm.trans added)
  intro wf'
  have same : v.parentOf = fun z => if z = p then some y else w.parentOf z := funext moved.parentOf
  refine not_acyclic_hang ?_ ?_ above wf'.acyclic
  · intro a other
    rw [same]
    exact if_neg other
  · rw [same]
    exact if_pos rfl

/-- The pointers of the nodes stay what they are. -/
theorem WellFormed.keep (wf : WellFormed w) (parentOf : ∀ z, v.parentOf z = w.parentOf z)
    (childnode : ∀ z, (v.node z).childnode = (w.node z).childnode) (live : ∀ z, w.Live z → v.Live z) : WellFormed v := by
  have same : v.parentOf = w.parentOf := funext parentOf
  refine ⟨?_, ?_, same ▸ wf.acyclic⟩
  · intro x y
    rw [childnode, parentOf]
    exact wf.linked x y
  · intro x y mem
    rw [childnode] at mem
    exact (wf.live x y mem).imp (live x) (live y)

theorem WellFormed.create {type : com_type} (wf : WellFormed w) : WellFormed (w.Create type) := by
  have unmade : ¬ w.Live w.made := fun live => lt_irrefl _ live.1
  refine wf.keep ?_ ?_ ?_
  · intro z
    show ((w.setNode w.made (.init type)).node z).parent = _
    rw [node_setNode]
    split
    · next new =>
      rw [new]
      cases up : w.parentOf w.made with
      | none => rfl
      | some y => exact absurd (wf.live _ y ((wf.linked _ y).2 up)).1 unmade
    · rfl
  · intro z
    show ((w.setNode w.made (.init type)).node z).childnode = _
    rw [node_setNode]
    split
    · next new =>
      rw [new]
      refine (List.eq_nil_iff_forall_not_mem.2 fun c mem => ?_).symm
      exact unmade (wf.live c _ mem).2
    · rfl
  · rintro z ⟨made, kept⟩
    exact ⟨Nat.lt_succ_of_lt made, kept⟩

theorem WellFormed.power {components : List (List IComponentPower)} (wf : WellFormed w) :
    WellFormed (w.setNode x { w.node x with components }) := by
  refine wf.keep ?_ ?_ fun _ live => live
  · intro z
    show ((w.setNode x _).node z).parent = _
    rw [node_setNode]
    split
    · next same => rw [same, parentOf]
    · rfl
  · intro z
    rw [node_setNode]
    split
    · next same => rw [same]
    · rfl

theorem WellFormed.step {a : Act} (wf : WellFormed w) (proper : Proper w a) (next : step w a = some v) : WellFormed v := by
  cases a with
  | create type =>
    obtain rfl := Option.some.inj next
    exact wf.create
  | add y p =>
    obtain ⟨live, next⟩ := Option.ite_none_right_eq_some.1 next
    exact wf.addINode live proper next
  | del y p => exact wf.delINode next
  | removeSelf x =>
    obtain ⟨-, next⟩ := Option.ite_none_right_eq_some.1 next
    exact wf.removeSelf proper next
  | free x =>
    obtain ⟨-, next⟩ := Option.ite_none_right_eq_some.1 next
    exact wf.free next
  | power x components =>
    obtain ⟨-, ⟨⟩⟩ := Option.ite_none_right_eq_some.1 next
    exact wf.power

theorem WellFormed.not_step {a : Act} (wf : WellFormed w) (improper : ¬ Proper w a) (next : Nodes.step w a = some v) :
    ¬ WellFormed v := by
  cases a with
  | create type | del y p | free x | power x components => exact absurd trivial improper
  | add y p =>
    obtain ⟨-, next⟩ := Option.ite_none_right_eq_some.1 next
    obtain ⟨active, above⟩ := Classical.not_imp.1 improper
    exact wf.not_addINode active (not_not.1 above) next
  | removeSelf x =>
    obtain ⟨-, next⟩ := Option.ite_none_right_eq_some.1 next
    exact wf.not_removeSelf improper next

/-- Where every one of a list of calls comes to its end, all of them do. -/
theorem prints_children {children : List Nat} (prints : ∀ c ∈ children, w.Prints c) :
    ∃ depth messages, ∀ more ≥ depth, children.mapM (w.toPMessage more) = some messages := by
  induction children with
  | nil => exact ⟨0, [], fun _ _ => rfl⟩
  | cons c children ih =>
    obtain ⟨depth, message, first⟩ := prints c List.mem_cons_self
    obtain ⟨depth', messages, rest⟩ := ih fun d mem => prints d (List.mem_cons_of_mem c mem)
    refine ⟨max depth depth', message :: messages, fun more enough => ?_⟩
    rw [List.mapM_cons, first more (by omega), rest more (by omega)]
    rfl

/-- **The serialiser ends** on every tree that is in order. -/
theorem WellFormed.prints (wf : WellFormed w) (live : w.Live x) : w.Prints x := by
  have finite : Finite {z | w.Live z} := (Set.finite_lt_nat w.made).subset fun _ live => live.1
  refine wf.acyclic.induction (s := {z | w.Live z}) ?_ ?_ live
  · intro a b up
    exact (wf.live a b ((wf.linked a b).2 up)).1
  · intro a live below
    obtain ⟨depth, messages, ends⟩ := prints_children fun c mem => below c ((wf.linked c a).1 mem)
    refine ⟨depth + 1, .mk a (w.node a).type (w.node a).bActive (w.node a).components.flatten messages, fun more enough => ?_⟩
    obtain ⟨more, rfl⟩ : ∃ k, more = k + 1 := ⟨more - 1, by omega⟩
    rw [toPMessage, if_pos (show w.Live a from live)]
    show (List.mapM (w.toPMessage more) (w.node a).childnode).map _ = _
    rw [ends more (by omega), Option.map_some]

theorem WellFormed.sound (wf : WellFormed w) : Sound w := ⟨wf, fun _ live => wf.prints live⟩

theorem wellFormed_init : WellFormed init where
  linked x y := iff_of_false List.not_mem_nil (Option.some_ne_none y).symm
  live x y mem := absurd mem List.not_mem_nil
  acyclic x cycle := by
    obtain ⟨y, up, -⟩ := TransGen.head'_iff.1 cycle
    cases up

end Trees

/-- **The component tree** is sound all along a run, if and only if in no step of it an active node is
given a child that is at or above it, and `RemoveSelf` is called only for nodes without children. -/
theorem tree_sound {as : List Act} {w : Nodes} (run : Runs step (fun _ _ => True) init as w) :
    (∀ bs v, bs <+: as → Runs step (fun _ _ => True) init bs v → Sound v) ↔ Runs step Proper init as w := by
  apply run.always_iff WellFormed wellFormed_init
  · intro w wf
    exact wf.sound
  · intro w a v wf proper next
    exact wf.step proper next
  · intro w a v wf improper next sound
    exact wf.not_step improper next sound.toWellFormed

/-- `Proper` where a child is only ever added to a node without a parent. -/
def properB (w : Nodes) : Act → Bool
  | .add y p => decide (w.parentOf y = none ∧ y ≠ p)
  | .removeSelf x => decide ((w.node x).childnode = [])
  | _ => true

theorem proper_of_properB (w : Nodes) (a : Act) (proper : properB w a = true) : Proper w a := by
  cases a with
  | add y p =>
    obtain ⟨root, ne⟩ := of_decide_eq_true proper
    intro _ way
    rcases ReflTransGen.cases_head way with same | ⟨c, up, -⟩
    · exact ne same
    · rw [Up, root] at up
      cases up
  | removeSelf x =>
    have leaf : (w.node x).childnode = [] := of_decide_eq_true proper
    exact leaf
  | create type | del y p | free x | power x components => trivial

/-- A tree of three nodes, whose root is freed. -/
theorem tree_sound_free : ∃ w, Runs step (fun _ _ => True) init
    [.create .body, .create .hand, .create .hand, .add 0 1, .add 0 2, .free 0] w ∧ Sound w := by
  have checked : (runChecked step properB init [.create .body, .create .hand, .create .hand, .add 0 1, .add 0 2, .free 0]).any
      (fun w => decide (w.Live 1)) = true := by
    decide
  have reached := Runs.exists_of_checked Proper proper_of_properB checked
  obtain ⟨w, run, -⟩ := reached
  have run' : Runs step (fun _ _ => True) init _ w := run.mono fun _ _ _ => trivial
  exact ⟨w, run', (tree_sound run').2 run _ w (List.prefix_refl _) run'⟩

/-- After `RemoveSelf` node 0 lists node 1, which has no parent; and two nodes hang under each other. -/
theorem tree_broken :
    (∃ w, Runs step (fun _ _ => True) init [.create .body, .create .hand, .add 0 1, .removeSelf 0] w ∧ ¬ Sound w) ∧
    ∃ w, Runs step (fun _ _ => True) init [.create .body, .create .hand, .add 0 1, .add 1 0] w ∧ ¬ Sound w := by
  have removed : ∃ w, Runs step (fun _ _ => True) init [.create .body, .create .hand, .add 0 1, .removeSelf 0] w ∧
      (1 ∈ (w.node 0).childnode ∧ w.parentOf 1 = none) := by
    apply Runs.exists_of_decide
    decide
  have cycle : ∃ w, Runs step (fun _ _ => True) init [.create .body, .create .hand, .add 0 1, .add 1 0] w ∧
      (w.parentOf 1 = some 0 ∧ w.parentOf 0 = some 1) := by
    apply Runs.exists_of_decide
    decide
  obtain ⟨w, run, listed, alone⟩ := removed
  obtain ⟨v, run', up, down⟩ := cycle
  refine ⟨⟨w, run, fun sound => ?_⟩, v, run', fun sound => ?_⟩
  · have up := (sound.linked 1 0).1 listed
    rw [alone] at up
    cases up
  · exact sound.acyclic 1 (.head up (.single down))

end Nodes

end GameServer.Logic

import GameServer.Lib.Ring
import GameServer.Lib.Run
import Mathlib.Data.List.Perm.Subperm
import Mathlib.Order.Nat

/-!
# The circular queue

The nodes of a `CCircularQueue` form a ring. `m_head` is the reader, `m_end` the writer, and a node is
made and put in behind the writer whenever the writer is about to catch up with the reader; a node that
was read is used again.

Several queues live side by side in one memory. Each keeps a ring of its own (`Shape`), an operation on
one leaves the rings of the others alone (`Touches`), and so every queue holds what was put into it, in
order (`fifo`).
-/

namespace GameServer.Containers

open GameServer.Lib

structure stOneWayListNode (V : Type) where
  data : V
  next : Nat
  deriving DecidableEq, Repr

/-- The nodes of all queues. The next one to be allocated is `made`. -/
structure Memory (V : Type) where
  node : Nat → stOneWayListNode V
  made : Nat

structure CCircularQueue where
  m_head : Nat
  m_end : Nat
  m_count : Nat
  m_countNode : Nat
  deriving DecidableEq, Repr

namespace Memory

variable {V : Type} {n p : Nat} {v : V}

def next (m : Memory V) (n : Nat) : Nat := (m.node n).next

def data (m : Memory V) (n : Nat) : V := (m.node n).data

def setNext (m : Memory V) (n p : Nat) : Memory V :=
  { m with node := Function.update m.node n { m.node n with next := p } }

def setData (m : Memory V) (n : Nat) (v : V) : Memory V :=
  { m with node := Function.update m.node n { m.node n with data := v } }

@[simp] theorem made_setNext (m : Memory V) : (m.setNext n p).made = m.made := rfl

@[simp] theorem made_setData (m : Memory V) : (m.setData n v).made = m.made := rfl

@[simp] theorem next_setNext (m : Memory V) : (m.setNext n p).next = Function.update m.next n p := by
  funext c
  by_cases same : c = n <;> simp [next, setNext, same]

@[simp] theorem data_setNext (m : Memory V) : (m.setNext n p).data = m.data := by
  funext c
  by_cases same : c = n <;> simp [data, setNext, same]

@[simp] theorem next_setData (m : Memory V) : (m.setData n v).next = m.next := by
  funext c
  by_cases same : c = n <;> simp [next, setData, same]

@[simp] theorem data_setData (m : Memory V) : (m.setData n v).data = Function.update m.data n v := by
  funext c
  by_cases same : c = n <;> simp [data, setData, same]

theorem node_setData (m : Memory V) {c : Nat} (other : c ≠ n) : (m.setData n v).node c = m.node c :=
  Function.update_of_ne other _ _

end Memory

namespace CCircularQueue

variable {V : Type} [Inhabited V]

/-- `allocate` throws where it has no memory, so the pointer is never null. `next` is whatever it was, and set by
the caller. -/
def CreateNode (m : Memory V) (q : CCircularQueue) : Memory V × CCircularQueue × Nat :=
  ({ node := Function.update m.node m.made { m.node m.made with data := default }, made := m.made + 1 },
    { q with m_countNode := q.m_countNode + 1 }, m.made)

/-- The default constructor. -/
def construct (m : Memory V) : Memory V × CCircularQueue :=
  let (m, q, pNode) := CreateNode m ⟨0, 0, 0, 0⟩
  (m.setNext pNode pNode, { q with m_head := pNode, m_end := pNode })

def AddNode (m : Memory V) (q : CCircularQueue) : Memory V × CCircularQueue :=
  let (m, q, pNode) := CreateNode m q
  ((m.setNext q.m_end pNode).setNext pNode q.m_head, q)

/-- How `Offer` and `Allot` begin. -/
def makeRoom (m : Memory V) (q : CCircularQueue) : Memory V × CCircularQueue :=
  if m.next q.m_end = q.m_head then AddNode m q else (m, q)

def Offer (m : Memory V) (q : CCircularQueue) (val : V) : Memory V × CCircularQueue :=
  let (m, q) := makeRoom m q
  let m := m.setData q.m_end val
  (m, { q with m_end := m.next q.m_end, m_count := q.m_count + 1 })

/-- The last component is the slot whose address is returned. -/
def Allot (m : Memory V) (q : CCircularQueue) : Memory V × CCircularQueue × Nat :=
  let (m, q) := makeRoom m q
  (m, { q with m_end := m.next q.m_end, m_count := q.m_count + 1 }, q.m_end)

/-- The loop of `Offers` from `it` to `stop`, for as many rounds as `fuel` allows. -/
def offerFrom : Nat → Memory V → CCircularQueue → Nat → Nat → Option (Memory V × CCircularQueue)
  | 0, m, q, it, stop => if it = stop then some (m, q) else none
  | fuel + 1, m, q, it, stop =>
    if it = stop then some (m, q)
    else
      let (m', q') := Offer m q (m.data it)
      offerFrom fuel m' q' (m'.next it) stop

/-- `none` where the loop has gone on for more rounds than there are nodes. -/
def Offers (m : Memory V) (q other : CCircularQueue) : Option (Memory V × CCircularQueue) :=
  if other.m_head = other.m_end then some (m, q) else offerFrom m.made m q other.m_head other.m_end

omit [Inhabited V] in
/-- The slot whose address is returned, `none` for `NULL`. -/
def Get (q : CCircularQueue) : Option Nat :=
  if q.m_head = q.m_end ∨ q.m_count = 0 then none else some q.m_head

def Poll (m : Memory V) (q : CCircularQueue) : CCircularQueue × V :=
  if q.m_head = q.m_end ∨ q.m_count = 0 then (q, default)
  else ({ q with m_count := q.m_count - 1, m_head := m.next q.m_head }, m.data q.m_head)

def Clear (q : CCircularQueue) : CCircularQueue :=
  { q with m_count := 0, m_end := q.m_head }

/-- All nodes of a ring, from the reader on. -/
def nodes (q : CCircularQueue) (used spare : List Nat) : List Nat :=
  used ++ q.m_end :: spare

/-- A queue that holds `vs`: its nodes are one ring, and the used ones among them carry `vs`. -/
structure Shape (m : Memory V) (q : CCircularQueue) (used spare : List Nat) (vs : List V) : Prop where
  ring : Ring m.next q.m_head q.m_end used spare
  made : ∀ n ∈ q.nodes used spare, n < m.made
  values : used.map m.data = vs
  count : q.m_count = vs.length
  countNode : q.m_countNode = (q.nodes used spare).length

/-- What an operation on the queue with the nodes `own` does to the memory; after it the nodes are `own'`. -/
structure Touches (m : Memory V) (own : List Nat) (m' : Memory V) (own' : List Nat) : Prop where
  kept : ∀ n < m.made, n ∉ own → m'.node n = m.node n
  grown : ∀ n ∈ own', n ∈ own ∨ m.made ≤ n
  made : m.made ≤ m'.made

section Operations

variable {m m' m'' : Memory V} {q q' : CCircularQueue} {used spare own own' own'' : List Nat} {vs : List V} {v : V}

omit [Inhabited V]

theorem Touches.refl (within : ∀ n ∈ own', n ∈ own) : Touches m own m own' :=
  ⟨fun _ _ _ => rfl, fun n mem => .inl (within n mem), le_rfl⟩

theorem Touches.trans (first : Touches m own m' own') (second : Touches m' own' m'' own'') : Touches m own m'' own'' := by
  refine ⟨?_, ?_, first.made.trans second.made⟩
  · intro n lt notOwn
    have notOwn' : n ∉ own' := by
      intro mem
      rcases first.grown n mem with mem | le
      · exact notOwn mem
      · omega
    rw [second.kept n (lt.trans_le first.made) notOwn', first.kept n lt notOwn]
  · intro n mem
    rcases second.grown n mem with mem | le
    · exact first.grown n mem
    · exact .inr (first.made.trans le)

/-- Another queue does not notice. -/
theorem Shape.frame (shape : Shape m q used spare vs) (touches : Touches m own m' own')
    (apart : ∀ n ∈ q.nodes used spare, n ∉ own) : Shape m' q used spare vs := by
  have same : ∀ n ∈ q.nodes used spare, m'.node n = m.node n := fun n mem =>
    touches.kept n (shape.made n mem) (apart n mem)
  refine ⟨?_, fun n mem => (shape.made n mem).trans_le touches.made, ?_, shape.count, shape.countNode⟩
  · exact shape.ring.frame fun n mem => congrArg stOneWayListNode.next (same n mem)
  · rw [← shape.values]
    refine List.map_congr_left fun n mem => congrArg stOneWayListNode.data (same n ?_)
    exact List.mem_append_left _ mem

theorem Shape.empty_iff (shape : Shape m q used spare vs) : q.m_head = q.m_end ∨ q.m_count = 0 ↔ vs = [] := by
  have lengths : used.length = vs.length := by rw [← shape.values, List.length_map]
  rw [shape.ring.empty_iff, shape.count, List.length_eq_zero_iff, ← List.length_eq_zero_iff, lengths,
    List.length_eq_zero_iff, or_self]

theorem shape_clear (shape : Shape m q used spare vs) : ∃ spare', Shape m q.Clear [] spare' [] ∧
    Touches m (q.nodes used spare) m (q.Clear.nodes [] spare') := by
  obtain ⟨spare', ring, perm⟩ := shape.ring.clear
  have same : ∀ n, n ∈ q.Clear.nodes [] spare' → n ∈ q.nodes used spare := fun n mem => perm.subset mem
  exact ⟨spare', ⟨ring, fun n mem => shape.made n (same n mem), rfl, rfl, shape.countNode.trans perm.length_eq.symm⟩, .refl same⟩

variable [Inhabited V]

theorem shape_construct (m : Memory V) : Shape (construct m).1 (construct m).2 [] [] [] ∧
    Touches m [] (construct m).1 ((construct m).2.nodes [] []) := by
  refine ⟨⟨?_, ?_, rfl, rfl, rfl⟩, ?_, ?_, ?_⟩
  · apply Ring.alone
    simp [construct, CreateNode]
  · simp [construct, CreateNode, nodes]
  · intro n lt _
    simp [construct, CreateNode, Memory.setNext, Function.update_of_ne lt.ne]
  · simp [construct, CreateNode, nodes]
  · simp [construct, CreateNode]

/-- A node is made where none is spare. -/
theorem shape_makeRoom (shape : Shape m q used spare vs) : ∃ n spare',
    Shape (makeRoom m q).1 (makeRoom m q).2 used (n :: spare') vs ∧
    Touches m (q.nodes used spare) (makeRoom m q).1 ((makeRoom m q).2.nodes used (n :: spare')) := by
  unfold makeRoom
  split
  next full =>
    obtain rfl := shape.ring.full_iff.1 full
    have new : ∀ n ∈ q.nodes used [], n ≠ m.made := fun n mem => (shape.made n mem).ne
    have newEnd : q.m_end ≠ m.made := new _ (List.mem_append_right _ List.mem_cons_self)
    have newUsed : ∀ n ∈ used, n ≠ m.made := fun n mem => new n (List.mem_append_left _ mem)
    have notEnd : ∀ n ∈ used, n ≠ q.m_end := by
      rintro n mem rfl
      exact (List.nodup_append.1 shape.ring.once).2.2 _ mem _ List.mem_cons_self rfl
    refine ⟨m.made, [], ⟨?_, ?_, ?_, shape.count, ?_⟩, ?_, ?_, ?_⟩
    · refine shape.ring.grow ?_ ?_ ?_ ?_
      · intro mem
        exact new _ mem rfl
      · simp [AddNode, CreateNode, Function.update_of_ne newEnd]
      · simp [AddNode, CreateNode]
      · intro n mem
        simp [AddNode, CreateNode, Memory.next, Memory.setNext, Function.update_of_ne (newUsed n mem), Function.update_of_ne (notEnd n mem)]
    · intro n mem
      have old : ∀ n ∈ q.nodes used [], n < m.made + 1 := fun n mem => (shape.made n mem).trans (Nat.lt_succ_self _)
      rcases List.mem_append.1 mem with mem | mem
      · exact old n (List.mem_append_left _ mem)
      · rcases List.mem_cons.1 mem with rfl | mem
        · exact old _ (List.mem_append_right _ List.mem_cons_self)
        · rw [List.mem_singleton.1 mem]
          exact Nat.lt_succ_self _
    · rw [← shape.values]
      refine List.map_congr_left fun n mem => ?_
      simp [AddNode, CreateNode, Memory.data, Memory.setNext, Function.update_of_ne (newUsed n mem), Function.update_of_ne (notEnd n mem)]
    · have length := shape.countNode
      simp only [AddNode, CreateNode, nodes, List.length_append, List.length_cons, List.length_nil] at length ⊢
      omega
    · intro n lt notOwn
      have other : n ≠ q.m_end := by
        rintro rfl
        exact notOwn (List.mem_append_right _ List.mem_cons_self)
      simp [AddNode, CreateNode, Memory.setNext, Function.update_of_ne lt.ne, Function.update_of_ne other]
    · intro n mem
      simp only [AddNode, CreateNode, nodes, List.mem_append, List.mem_cons, List.not_mem_nil, or_false] at mem ⊢
      rcases mem with mem | rfl | rfl
      · exact .inl (.inl mem)
      · exact .inl (.inr rfl)
      · exact .inr le_rfl
    · exact Nat.le_succ _
  next room =>
    cases spare with
    | nil => exact absurd (shape.ring.full_iff.2 rfl) room
    | cons n spare => exact ⟨n, spare, shape, .refl fun _ mem => mem⟩

omit [Inhabited V] in
/-- The writer writes its own node and goes on. -/
theorem shape_write {n : Nat} (shape : Shape m q used (n :: spare) vs) :
    let q' := { q with m_end := m.next q.m_end, m_count := q.m_count + 1 }
    Shape (m.setData q.m_end v) q' (used ++ [q.m_end]) spare (vs ++ [v]) ∧
      Touches m (q.nodes used (n :: spare)) (m.setData q.m_end v) (q'.nodes (used ++ [q.m_end]) spare) := by
  obtain ⟨onto, ring⟩ := shape.ring.put
  have same : ({ q with m_end := m.next q.m_end, m_count := q.m_count + 1 } : CCircularQueue).nodes (used ++ [q.m_end]) spare
      = q.nodes used (n :: spare) := by simp [nodes, onto]
  refine ⟨⟨?_, ?_, ?_, ?_, ?_⟩, ?_, ?_, le_rfl⟩
  · rw [Memory.next_setData, onto]
    exact ring
  · intro c mem
    exact shape.made c (same ▸ mem)
  · have notEnd : ∀ c ∈ used, c ≠ q.m_end := by
      rintro c mem rfl
      exact (List.nodup_append.1 shape.ring.once).2.2 _ mem _ List.mem_cons_self rfl
    rw [List.map_append, ← shape.values, Memory.data_setData]
    congr 1
    · refine List.map_congr_left fun c mem => ?_
      rw [Function.update_of_ne (notEnd c mem)]
    · simp
  · simp [shape.count]
  · rw [same]
    exact shape.countNode
  · intro c _ notOwn
    refine Memory.node_setData m ?_
    rintro rfl
    exact notOwn (List.mem_append_right _ List.mem_cons_self)
  · intro c mem
    exact .inl (same ▸ mem)

theorem shape_offer (shape : Shape m q used spare vs) (v : V) : ∃ used' spare',
    Shape (Offer m q v).1 (Offer m q v).2 used' spare' (vs ++ [v]) ∧
    Touches m (q.nodes used spare) (Offer m q v).1 ((Offer m q v).2.nodes used' spare') := by
  obtain ⟨n, spare', room, touches⟩ := shape_makeRoom shape
  obtain ⟨written, touches'⟩ := shape_write (v := v) room
  have result : Offer m q v = ((makeRoom m q).1.setData (makeRoom m q).2.m_end v, _) := rfl
  rw [Memory.next_setData] at result
  rw [result]
  exact ⟨_, _, written, touches.trans touches'⟩

/-- `Allot`, and the slot is written: an `Offer`. -/
theorem allot_eq (m : Memory V) (q : CCircularQueue) (v : V) :
    ((Allot m q).1.setData (Allot m q).2.2 v, (Allot m q).2.1) = Offer m q v := by
  simp [Allot, Offer]

theorem shape_poll (shape : Shape m q used spare vs) : (Poll m q).2 = vs.headD default ∧ ∃ used' spare',
    Shape m (Poll m q).1 used' spare' vs.tail ∧ Touches m (q.nodes used spare) m ((Poll m q).1.nodes used' spare') := by
  have lengths : used.length = vs.length := by rw [← shape.values, List.length_map]
  unfold Poll
  split
  next empty =>
    obtain rfl := shape.empty_iff.1 empty
    exact ⟨rfl, used, spare, shape, .refl fun _ mem => mem⟩
  next filled =>
    cases used with
    | nil =>
      refine absurd (shape.empty_iff.2 ?_) filled
      exact List.length_eq_zero_iff.1 lengths.symm
    | cons n used =>
      obtain ⟨here, ring⟩ := shape.ring.take
      have values := shape.values
      rw [List.map_cons] at values
      subst values
      have perm : (used ++ q.m_end :: (spare ++ [n])).Perm (q.nodes (n :: used) spare) := by
        have around : (used ++ q.m_end :: spare ++ [n]).Perm ([n] ++ (used ++ q.m_end :: spare)) := List.perm_append_comm
        simpa [nodes] using around
      refine ⟨by simp [here], used, spare ++ [n], ⟨?_, ?_, rfl, ?_, ?_⟩, .refl ?_⟩
      · rw [here]
        exact ring
      · intro c mem
        exact shape.made c (perm.subset mem)
      · simp [shape.count]
      · exact shape.countNode.trans perm.length_eq.symm
      · intro c mem
        exact perm.subset mem

omit [Inhabited V] in
theorem get_eq (shape : Shape m q used spare vs) : q.Get.map m.data = vs.head? := by
  unfold Get
  split
  next empty => rw [shape.empty_iff.1 empty]; rfl
  next filled =>
    cases used with
    | nil => exact absurd (.inl (shape.ring.empty_iff.2 rfl)) filled
    | cons n used =>
      rw [← shape.values, Option.map_some, List.map_cons, List.head?_cons, shape.ring.take.1]

theorem offerFrom_stop (fuel : Nat) (m : Memory V) (q : CCircularQueue) (stop : Nat) : offerFrom fuel m q stop stop = some (m, q) := by
  cases fuel <;> exact if_pos rfl

/-- The loop of `Offers`, by induction on the nodes that are still ahead of `it`. -/
theorem shape_offerFrom {fuel it stop : Nat} {ahead : List Nat} (shape : Shape m q used spare vs)
    (path : Path m.next it ahead stop) (once : (ahead ++ [stop]).Nodup) (made : ∀ n ∈ ahead, n < m.made)
    (apart : ∀ n ∈ ahead, n ∉ q.nodes used spare) (enough : ahead.length ≤ fuel) : ∃ m' q' used' spare',
    offerFrom fuel m q it stop = some (m', q') ∧ Shape m' q' used' spare' (vs ++ ahead.map m.data) ∧
      Touches m (q.nodes used spare) m' (q'.nodes used' spare') := by
  induction ahead generalizing fuel m q used spare vs it with
  | nil =>
    obtain rfl : it = stop := path
    refine ⟨m, q, used, spare, offerFrom_stop fuel m q it, ?_, .refl fun _ mem => mem⟩
    rw [List.map_nil, List.append_nil]
    exact shape
  | cons n ahead ih =>
    obtain ⟨rfl, path⟩ := path
    obtain ⟨notLater, once⟩ := List.nodup_cons.1 once
    have going : it ≠ stop := by
      rintro rfl
      exact notLater (List.mem_append_right _ List.mem_cons_self)
    cases fuel with
    | zero => simp at enough
    | succ fuel =>
      obtain ⟨used', spare', offered, touches⟩ := shape_offer shape (m.data it)
      have same : ∀ c ∈ it :: ahead, (Offer m q (m.data it)).1.node c = m.node c := fun c mem =>
        touches.kept c (made c mem) (apart c mem)
      have onward : (Offer m q (m.data it)).1.next it = m.next it :=
        congrArg stOneWayListNode.next (same it List.mem_cons_self)
      have nothingNew : ∀ c ∈ ahead, c ∉ (Offer m q (m.data it)).2.nodes used' spare' := by
        intro c mem own
        have old := made c (List.mem_cons_of_mem _ mem)
        rcases touches.grown c own with own | new
        · exact apart c (List.mem_cons_of_mem _ mem) own
        · omega
      obtain ⟨m', q', used'', spare'', result, shape', touches'⟩ := ih offered
        (path.frame fun c mem => congrArg stOneWayListNode.next (same c (List.mem_cons_of_mem _ mem))) once
        (fun c mem => (made c (List.mem_cons_of_mem _ mem)).trans_le touches.made) nothingNew
        (Nat.le_of_succ_le_succ enough)
      refine ⟨m', q', used'', spare'', ?_, ?_, touches.trans touches'⟩
      · rw [offerFrom, if_neg going]
        rw [← onward] at result
        exact result
      · have values : ahead.map (Offer m q (m.data it)).1.data = ahead.map m.data :=
          List.map_congr_left fun c mem => congrArg stOneWayListNode.data (same c (List.mem_cons_of_mem _ mem))
        rw [values] at shape'
        rw [List.map_cons, ← List.singleton_append, ← List.append_assoc]
        exact shape'

/-- `Offers` comes to its end and appends what the other queue holds. -/
theorem shape_offers {other : CCircularQueue} {used' spare' : List Nat} {ws : List V} (shape : Shape m q used spare vs)
    (otherShape : Shape m other used' spare' ws) (apart : ∀ n ∈ other.nodes used' spare', n ∉ q.nodes used spare) :
    ∃ m' q' used'' spare'', Offers m q other = some (m', q') ∧ Shape m' q' used'' spare'' (vs ++ ws) ∧
      Touches m (q.nodes used spare) m' (q'.nodes used'' spare'') := by
  have inner : ∀ n ∈ used', n ∈ other.nodes used' spare' := fun n mem => List.mem_append_left _ mem
  have once : (used' ++ [other.m_end]).Nodup :=
    otherShape.ring.once.sublist ((List.Sublist.refl used').append (List.singleton_sublist.2 List.mem_cons_self))
  have enough : used'.length ≤ m.made := by
    have within : used' ⊆ List.range m.made := fun n mem => List.mem_range.2 (otherShape.made n (inner n mem))
    have le := ((List.nodup_append.1 once).1.subperm within).length_le
    rwa [List.length_range] at le
  obtain ⟨m', q', used'', spare'', result, shape', touches⟩ := shape_offerFrom shape otherShape.ring.filled once
    (fun n mem => otherShape.made n (inner n mem)) (fun n mem => apart n (inner n mem)) enough
  rw [otherShape.values] at shape'
  refine ⟨m', q', used'', spare'', ?_, shape', touches⟩
  unfold Offers
  split
  next empty => rwa [empty, offerFrom_stop] at result
  next => exact result

end Operations

/-! ## Queues side by side -/

structure World (V : Type) where
  memory : Memory V
  queues : Nat → Option CCircularQueue

inductive Act (V : Type) where
  | construct (i : Nat)
  | offer (i : Nat) (val : V)
  /-- The queue `j` is given to the queue `i`. -/
  | offers (i j : Nat)
  /-- `val` is written into the slot that `Allot` returned. -/
  | allot (i : Nat) (val : V)
  | get (i : Nat)
  | poll (i : Nat)
  | clear (i : Nat)
  deriving DecidableEq, Repr

def World.put (w : World V) (i : Nat) (next : Memory V × CCircularQueue) : World V :=
  { memory := next.1, queues := Function.update w.queues i next.2 }

section

omit [Inhabited V]

@[simp] theorem World.put_self (w : World V) (i : Nat) (next : Memory V × CCircularQueue) : (w.put i next).queues i = some next.2 :=
  Function.update_self _ _ _

theorem World.put_of_ne (w : World V) {i j : Nat} (next : Memory V × CCircularQueue) (other : j ≠ i) :
    (w.put i next).queues j = w.queues j :=
  Function.update_of_ne other _ _

end

def step (w : World V) : Act V → Option (World V)
  | .construct i => if (w.queues i).isSome then none else some (w.put i (construct w.memory))
  | .offer i val => (w.queues i).map fun q => w.put i (Offer w.memory q val)
  | .offers i j =>
    -- given to itself, a queue would run after its own end
    if i = j then none
    else (w.queues i).bind fun q => (w.queues j).bind fun other => (Offers w.memory q other).map (w.put i)
  | .allot i val => (w.queues i).map fun q =>
      let (m, q, slot) := Allot w.memory q
      w.put i (m.setData slot val, q)
  | .get i => (w.queues i).map fun _ => w
  | .poll i => (w.queues i).map fun q => w.put i (w.memory, (Poll w.memory q).1)
  | .clear i => (w.queues i).map fun q => w.put i (w.memory, q.Clear)

/-- No queue yet, and any memory. -/
def World.start (memory : Memory V) : World V := ⟨memory, fun _ => none⟩

/-- What an operation does to the contents of the queues. -/
def content (c : Nat → List V) : Act V → Nat → List V
  | .construct i => Function.update c i []
  | .offer i val => Function.update c i (c i ++ [val])
  | .offers i j => Function.update c i (c i ++ c j)
  | .allot i val => Function.update c i (c i ++ [val])
  | .get _ => c
  | .poll i => Function.update c i (c i).tail
  | .clear i => Function.update c i []

def contents (as : List (Act V)) : Nat → List V :=
  as.foldl content fun _ => []

/-- Every queue is a ring of its own and holds its content. -/
structure Refines (w : World V) (c : Nat → List V) (used spare : Nat → List Nat) : Prop where
  shape : ∀ i q, w.queues i = some q → Shape w.memory q (used i) (spare i) (c i)
  apart : ∀ i j q r, i ≠ j → w.queues i = some q → w.queues j = some r →
    ∀ n ∈ r.nodes (used j) (spare j), n ∉ q.nodes (used i) (spare i)

section Worlds

variable {w u : World V} {c : Nat → List V} {used spare : Nat → List Nat} {i j : Nat} {q other : CCircularQueue} {a : Act V}

omit [Inhabited V] in
/-- An operation on one queue, seen from all of them. -/
theorem Refines.put (refines : Refines w c used spare) {own used' spare' : List Nat} {vs : List V} {m : Memory V}
    (apart : ∀ j r, j ≠ i → w.queues j = some r → ∀ n ∈ r.nodes (used j) (spare j), n ∉ own)
    (shape : Shape m q used' spare' vs) (touches : Touches w.memory own m (q.nodes used' spare')) :
    Refines (w.put i (m, q)) (Function.update c i vs) (Function.update used i used') (Function.update spare i spare') := by
  have foreign : ∀ j r, j ≠ i → w.queues j = some r → ∀ n ∈ r.nodes (used j) (spare j), n ∉ q.nodes used' spare' := by
    intro j r other here n mem mine
    have old := (refines.shape j r here).made n mem
    rcases touches.grown n mine with mine | new
    · exact apart j r other here n mem mine
    · omega
  have elsewhere : ∀ j r, j ≠ i → (w.put i (m, q)).queues j = some r → w.queues j = some r := fun j r other here => by
    rwa [World.put_of_ne w _ other] at here
  have here : ∀ r, (w.put i (m, q)).queues i = some r → r = q := fun r here => by
    rw [World.put_self] at here
    exact (Option.some.inj here).symm
  refine ⟨?_, ?_⟩
  · intro j r at_j
    by_cases other : j = i
    · subst other
      rw [here r at_j, Function.update_self, Function.update_self, Function.update_self]
      exact shape
    · rw [Function.update_of_ne other, Function.update_of_ne other, Function.update_of_ne other]
      have at_j := elsewhere j r other at_j
      exact (refines.shape j r at_j).frame touches (apart j r other at_j)
  · intro j k r s distinct at_j at_k n mem
    by_cases first : j = i
    · subst first
      rw [Function.update_of_ne distinct.symm, Function.update_of_ne distinct.symm] at mem
      rw [here r at_j, Function.update_self, Function.update_self]
      exact foreign k s distinct.symm (elsewhere k s distinct.symm at_k) n mem
    · have before := elsewhere j r first at_j
      rw [Function.update_of_ne first, Function.update_of_ne first]
      by_cases second : k = i
      · subst second
        rw [here s at_k, Function.update_self, Function.update_self] at mem
        intro own
        exact foreign j r first before n own mem
      · rw [Function.update_of_ne second, Function.update_of_ne second] at mem
        exact refines.apart j k r s distinct before (elsewhere k s second at_k) n mem

/-- The other queue comes out of `Offers` as it went in. -/
theorem Refines.offers (refines : Refines w c used spare) (distinct : i ≠ j) (here : w.queues i = some q)
    (there : w.queues j = some other) : ∃ u used' spare', step w (.offers i j) = some u ∧
      Refines u (content c (.offers i j)) used' spare' ∧ u.queues j = some other ∧
      ∀ n ∈ other.nodes (used j) (spare j), u.memory.node n = w.memory.node n := by
  have otherShape := refines.shape j other there
  have apart := refines.apart i j q other distinct here there
  obtain ⟨m', q', used', spare', result, shape, touches⟩ := shape_offers (refines.shape i q here) otherShape apart
  refine ⟨w.put i (m', q'), _, _, ?_, refines.put ?_ shape touches, ?_, ?_⟩
  · simp [step, distinct, here, there, result]
  · intro k r ne at_k
    exact refines.apart i k q r ne.symm here at_k
  · rw [World.put_of_ne w _ distinct.symm, there]
  · intro n mem
    exact touches.kept n (otherShape.made n mem) (apart n mem)

theorem Refines.step (refines : Refines w c used spare) (next : step w a = some u) :
    ∃ used' spare', Refines u (content c a) used' spare' := by
  have apart : ∀ i q, w.queues i = some q → ∀ j r, j ≠ i → w.queues j = some r →
      ∀ n ∈ r.nodes (used j) (spare j), n ∉ q.nodes (used i) (spare i) := fun i q here j r ne at_j =>
    refines.apart i j q r ne.symm here at_j
  cases a with
  | construct i =>
    simp only [CCircularQueue.step] at next
    split at next
    · cases next
    · cases next
      obtain ⟨shape, touches⟩ := shape_construct w.memory
      exact ⟨_, _, refines.put (fun _ _ _ _ _ _ => List.not_mem_nil) shape touches⟩
  | offer i val =>
    obtain ⟨q, here, rfl⟩ := Option.map_eq_some_iff.1 next
    obtain ⟨used', spare', shape, touches⟩ := shape_offer (refines.shape i q here) val
    exact ⟨_, _, refines.put (apart i q here) shape touches⟩
  | offers i j =>
    have distinct : i ≠ j := by
      rintro rfl
      simp [CCircularQueue.step] at next
    simp only [CCircularQueue.step, if_neg distinct] at next
    obtain ⟨q, here, next⟩ := Option.bind_eq_some_iff.1 next
    obtain ⟨other, there, next⟩ := Option.bind_eq_some_iff.1 next
    obtain ⟨u', used', spare', result, after, -, -⟩ := refines.offers distinct here there
    simp only [CCircularQueue.step, if_neg distinct, here, there, Option.bind_some] at result
    obtain rfl := Option.some.inj (next.symm.trans result)
    exact ⟨used', spare', after⟩
  | allot i val =>
    obtain ⟨q, here, rfl⟩ := Option.map_eq_some_iff.1 next
    obtain ⟨used', spare', shape, touches⟩ := shape_offer (refines.shape i q here) val
    rw [← allot_eq] at shape touches
    exact ⟨_, _, refines.put (apart i q here) shape touches⟩
  | get i =>
    obtain ⟨q, -, rfl⟩ := Option.map_eq_some_iff.1 next
    exact ⟨used, spare, refines⟩
  | poll i =>
    obtain ⟨q, here, rfl⟩ := Option.map_eq_some_iff.1 next
    obtain ⟨-, used', spare', shape, touches⟩ := shape_poll (refines.shape i q here)
    exact ⟨_, _, refines.put (apart i q here) shape touches⟩
  | clear i =>
    obtain ⟨q, here, rfl⟩ := Option.map_eq_some_iff.1 next
    obtain ⟨spare', shape, touches⟩ := shape_clear (refines.shape i q here)
    exact ⟨_, _, refines.put (apart i q here) shape touches⟩

omit [Inhabited V] in
theorem refines_start (memory : Memory V) : Refines (World.start memory) (fun _ => []) (fun _ => []) fun _ => [] := by
  refine ⟨?_, ?_⟩
  · intro i q here
    cases here
  · intro i j q r _ here
    cases here

theorem Refines.run {ok : World V → Act V → Prop} {memory : Memory V} {as : List (Act V)}
    (run : Runs CCircularQueue.step ok (World.start memory) as w) : ∃ used spare, Refines w (contents as) used spare := by
  induction run with
  | refl => exact ⟨_, _, refines_start memory⟩
  | snoc _ _ next ih =>
    obtain ⟨used, spare, refines⟩ := ih
    obtain ⟨used', spare', after⟩ := refines.step next
    refine ⟨used', spare', ?_⟩
    rw [contents, List.foldl_append]
    exact after

/-- **Every queue is a FIFO queue.** After any run its nodes are one ring of `m_countNode` nodes, from `m_head` up to
`m_end` stand the values that were put in and not yet taken out, `m_count` of them, and `Get` and `Poll`
answer the first of them. `Offers` comes to an end and leaves the queue it is given as it is. -/
theorem fifo {memory : Memory V} {as : List (Act V)} (run : Runs step (fun _ _ => True) (World.start memory) as w) :
    ∃ used spare, Refines w (contents as) used spare ∧
      (∀ i q, w.queues i = some q → q.Get.map w.memory.data = (contents as i).head? ∧
        (Poll w.memory q).2 = (contents as i).headD default) ∧
      ∀ i j q other, i ≠ j → w.queues i = some q → w.queues j = some other →
        ∃ u, step w (.offers i j) = some u ∧ u.queues j = some other ∧
          ∀ n ∈ other.nodes (used j) (spare j), u.memory.node n = w.memory.node n := by
  obtain ⟨used, spare, refines⟩ := Refines.run run
  refine ⟨used, spare, refines, ?_, ?_⟩
  · intro i q here
    have shape := refines.shape i q here
    exact ⟨get_eq shape, (shape_poll shape).1⟩
  · intro i j q other distinct here there
    obtain ⟨u, -, -, result, -, kept, same⟩ := refines.offers distinct here there
    exact ⟨u, result, kept, same⟩

end Worlds

/-- One queue is read, cleared in the middle of its ring and filled again from another one. -/
theorem fifo_offers : ∃ w : World Nat, ∃ used spare,
    Runs step (fun _ _ => True) (World.start ⟨fun _ => ⟨7, 0⟩, 1⟩)
      [.construct 0, .construct 1, .offer 0 3, .offer 0 4, .offer 0 5, .poll 0, .allot 1 8, .offers 1 0, .clear 0, .offers 0 1] w ∧
      Refines w (fun i => if i ≤ 1 then [8, 4, 5] else []) used spare ∧ (w.queues 0).map (fun q => (Poll w.memory q).2) = some 8 := by
  obtain ⟨w, run, polled⟩ : ∃ w : World Nat, Runs step (fun _ _ => True) (World.start ⟨fun _ => ⟨7, 0⟩, 1⟩)
      [.construct 0, .construct 1, .offer 0 3, .offer 0 4, .offer 0 5, .poll 0, .allot 1 8, .offers 1 0, .clear 0, .offers 0 1] w ∧
      (w.queues 0).map (fun q => (Poll w.memory q).2) = some 8 := by
    apply Runs.exists_of_decide
    decide
  obtain ⟨used, spare, refines, -⟩ := fifo run
  refine ⟨w, used, spare, run, ?_, polled⟩
  convert refines using 1
  funext i
  rcases i with - | - | i
  · rfl
  · rfl
  · simp [contents, content, Function.update]

end CCircularQueue

end GameServer.Containers

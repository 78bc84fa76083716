import GameServer.Containers.CircularQueue

/-!
# Copies of a circular queue

`operator =` is a `Clear` followed by an `Offers`, and so is the copy constructor. The assignment makes a copy of any other
queue, whatever the two rings look like, but a queue that is assigned to itself is cleared before it is read. The copy constructor
initializes none of its fields: `Clear` takes the writer from a reader that was never set, and no ring is made for it
(`copies_iff`).
-/

namespace GameServer.Containers.CCircularQueue

open GameServer.Lib

variable {V : Type} [Inhabited V]

/-- `operator =` of the queue `i`. Its operand is read after the `Clear`. -/
def World.assign (w : World V) (i j : Nat) : Option (World V) :=
  (w.queues i).bind fun q =>
    let w := w.put i (w.memory, q.Clear)
    (w.queues j).bind fun other => (Offers w.memory q.Clear other).map (w.put i)

/-- The copy constructor of the queue `i`, in a storage that holds `raw`. -/
def World.copy (w : World V) (i j : Nat) (raw : CCircularQueue) : Option (World V) :=
  if (w.queues i).isSome then none
  else (w.queues j).bind fun other => (Offers w.memory raw.Clear other).map (w.put i)

/-- The operations, the assignment among them. -/
inductive Op (V : Type) where
  | act (a : Act V)
  | assign (i j : Nat)
  deriving DecidableEq, Repr

def stepOp (w : World V) : Op V → Option (World V)
  | .act a => step w a
  | .assign i j => w.assign i j

def contentOp (c : Nat → List V) : Op V → Nat → List V
  | .act a => content c a
  | .assign i j => Function.update c i (if i = j then [] else c j)

def contentsOp (ops : List (Op V)) : Nat → List V := ops.foldl contentOp fun _ => []

/-- The two ways to copy a queue. -/
inductive Copying where
  | assign (i j : Nat)
  | construct (i j : Nat)

/-- The queues that are there before. -/
def Copying.operands : Copying → List Nat
  | .assign i j => [i, j]
  | .construct _ j => [j]

/-- **What a copy is**: the target holds what the source held, every other queue what it held, and all are well formed. Of the
copy constructor that is asked for any storage. -/
def Copies (w : World V) (c : Nat → List V) : Copying → Prop
  | .assign i j => ∃ u used spare, w.assign i j = some u ∧ Refines u (Function.update c i (c j)) used spare
  | .construct i j => ∀ raw, ∃ u used spare, w.copy i j raw = some u ∧ Refines u (Function.update c i (c j)) used spare

/-- An assignment, but not of a queue with elements to itself. -/
def Distinct (c : Nat → List V) : Copying → Prop
  | .assign i j => i ≠ j ∨ c j = []
  | .construct _ _ => False

section Assignments

variable {w u : World V} {c : Nat → List V} {used spare : Nat → List Nat} {i j : Nat} {q other : CCircularQueue} {op : Op V}
  {ops : List (Op V)}

/-- A queue that is assigned to itself is cleared, and then there is nothing to offer. -/
theorem assign_self (here : w.queues i = some q) : w.assign i i = some (w.put i (w.memory, q.Clear)) := by
  have empty : Offers w.memory q.Clear q.Clear = some (w.memory, q.Clear) := if_pos rfl
  simp only [World.assign, here, Option.bind_some, World.put_self]
  rw [show (w.put i (w.memory, q.Clear)).memory = w.memory from rfl, empty, Option.map_some]
  simp only [World.put, Function.update_idem]

/-- An assignment always comes to its end. What it leaves in the target is what the source holds after the target was cleared. -/
theorem Refines.assign (refines : Refines w c used spare) (here : w.queues i = some q) (there : w.queues j = some other) :
    ∃ u used' spare', w.assign i j = some u ∧
      Refines u (Function.update c i (if i = j then [] else c j)) used' spare' := by
  have cleared : CCircularQueue.step w (.clear i) = some (w.put i (w.memory, q.Clear)) := by
    simp [CCircularQueue.step, here]
  obtain ⟨used', spare', refines'⟩ := refines.step cleared
  by_cases same : i = j
  · subst same
    rw [if_pos rfl]
    exact ⟨_, used', spare', assign_self here, refines'⟩
  · have target : (w.put i (w.memory, q.Clear)).queues i = some q.Clear := World.put_self w i _
    have source : (w.put i (w.memory, q.Clear)).queues j = some other := by
      rw [World.put_of_ne w _ (Ne.symm same), there]
    obtain ⟨u, used'', spare'', offered, refines'', -⟩ := refines'.offers same target source
    simp only [CCircularQueue.step, if_neg same, target, source, Option.bind_some] at offered
    refine ⟨u, used'', spare'', ?_, ?_⟩
    · simp only [World.assign, here, Option.bind_some, source]
      exact offered
    · have result : content (content c (.clear i)) (.offers i j) = Function.update c i (c j) := by
        simp [content, Function.update_of_ne (Ne.symm same)]
      rw [if_neg same, ← result]
      exact refines''

/-- Both queues of an assignment are there. -/
theorem assign_some (next : w.assign i j = some u) : (∃ q, w.queues i = some q) ∧ ∃ other, w.queues j = some other := by
  obtain ⟨q, here, next⟩ := Option.bind_eq_some_iff.1 next
  obtain ⟨other, there, -⟩ := Option.bind_eq_some_iff.1 next
  refine ⟨⟨q, here⟩, ?_⟩
  by_cases same : j = i
  · exact ⟨q, same ▸ here⟩
  · rw [World.put_of_ne w _ same] at there
    exact ⟨other, there⟩

theorem Refines.stepOp (refines : Refines w c used spare) (next : stepOp w op = some u) :
    ∃ used' spare', Refines u (contentOp c op) used' spare' := by
  cases op with
  | act a => exact refines.step next
  | assign i j =>
    obtain ⟨⟨q, here⟩, other, there⟩ := assign_some next
    obtain ⟨u', used', spare', result, refines'⟩ := refines.assign here there
    obtain rfl := Option.some.inj (next.symm.trans result)
    exact ⟨used', spare', refines'⟩

theorem Refines.runOp {memory : Memory V} (run : Runs CCircularQueue.stepOp (fun _ _ => True) (World.start memory) ops w) :
    ∃ used spare, Refines w (contentsOp ops) used spare := by
  induction run with
  | refl => exact ⟨_, _, refines_start memory⟩
  | snoc _ _ next ih =>
    obtain ⟨used, spare, refines⟩ := ih
    obtain ⟨used', spare', after⟩ := refines.stepOp next
    refine ⟨used', spare', ?_⟩
    rw [contentsOp, List.foldl_concat]
    exact after

theorem copies_assign_iff (refines : Refines w c used spare) (here : w.queues i = some q) (there : w.queues j = some other) :
    Copies w c (.assign i j) ↔ Distinct c (.assign i j) := by
  obtain ⟨u, used', spare', result, refines'⟩ := refines.assign here there
  by_cases same : i = j
  · subst same
    rw [if_pos rfl] at refines'
    simp only [Distinct, ne_eq, not_true, false_or]
    constructor
    · rintro ⟨u', used'', spare'', result', refines''⟩
      obtain rfl := Option.some.inj (result.symm.trans result')
      obtain rfl := Option.some.inj (result.symm.trans (assign_self here))
      -- the queue holds nothing and what it held
      have nothing := (refines'.shape i q.Clear (World.put_self w i _)).count
      have all := (refines''.shape i q.Clear (World.put_self w i _)).count
      rw [Function.update_self] at nothing all
      exact List.length_eq_zero_iff.1 (all.symm.trans nothing)
    · intro empty
      refine ⟨u, used', spare', result, ?_⟩
      rw [empty]
      exact refines'
  · rw [if_neg same] at refines'
    exact iff_of_true ⟨u, used', spare', result, refines'⟩ (.inl same)

end Assignments

section Construction

variable {m m' : Memory V} {q q' : CCircularQueue}

/-- Every node that is made is counted. -/
theorem makeRoom_countNode (m : Memory V) (q : CCircularQueue) :
    (makeRoom m q).2.m_countNode + m.made = q.m_countNode + (makeRoom m q).1.made := by
  unfold makeRoom
  split
  · simp only [AddNode, CreateNode, Memory.made_setNext]
    omega
  · rfl

theorem Offer_countNode (m : Memory V) (q : CCircularQueue) (v : V) :
    (Offer m q v).2.m_countNode + m.made = q.m_countNode + (Offer m q v).1.made :=
  makeRoom_countNode m q

theorem offerFrom_countNode {fuel it stop : Nat} (result : offerFrom fuel m q it stop = some (m', q')) :
    q'.m_countNode + m.made = q.m_countNode + m'.made := by
  induction fuel generalizing m q it with
  | zero =>
    unfold offerFrom at result
    split at result
    · cases result
      rfl
    · cases result
  | succ fuel ih =>
    unfold offerFrom at result
    split at result
    · cases result
      rfl
    · have result : offerFrom fuel (Offer m q (m.data it)).1 (Offer m q (m.data it)).2 _ stop = some (m', q') := result
      have first := Offer_countNode m q (m.data it)
      have rest := ih result
      omega

/-- More nodes than there are in the memory never become a ring. -/
theorem copy_ill_formed {w u : World V} {i j : Nat} {raw : CCircularQueue} {c : Nat → List V} {used spare : Nat → List Nat}
    (many : w.memory.made < raw.m_countNode) (copied : w.copy i j raw = some u) : ¬ Refines u c used spare := by
  intro refines
  unfold World.copy at copied
  split at copied
  · cases copied
  obtain ⟨other, -, copied⟩ := Option.bind_eq_some_iff.1 copied
  obtain ⟨⟨m', q'⟩, offered, rfl⟩ := Option.map_eq_some_iff.1 copied
  have counted : q'.m_countNode + w.memory.made = raw.m_countNode + m'.made := by
    unfold Offers at offered
    split at offered
    · cases offered
      rfl
    · exact offerFrom_countNode (q := raw.Clear) offered
  have shape := refines.shape i q' (World.put_self w i _)
  have within : q'.nodes (used i) (spare i) ⊆ List.range m'.made := fun n mem => List.mem_range.2 (shape.made n mem)
  have le : (q'.nodes (used i) (spare i)).length ≤ _ := (shape.ring.once.subperm within).length_le
  rw [List.length_range, ← shape.countNode] at le
  omega

end Construction

/-- **Copying a queue** gives a copy, in every reachable state, if and only if it is an assignment and the source is another queue
or empty. -/
theorem copies_iff {memory : Memory V} {ops : List (Op V)} {w : World V} {copying : Copying}
    (run : Runs stepOp (fun _ _ => True) (World.start memory) ops w)
    (there : ∀ i ∈ copying.operands, (w.queues i).isSome) :
    Copies w (contentsOp ops) copying ↔ Distinct (contentsOp ops) copying := by
  obtain ⟨used, spare, refines⟩ := Refines.runOp run
  cases copying with
  | assign i j =>
    obtain ⟨q, here⟩ := Option.isSome_iff_exists.1 (there i (by simp [Copying.operands]))
    obtain ⟨other, there⟩ := Option.isSome_iff_exists.1 (there j (by simp [Copying.operands]))
    exact copies_assign_iff refines here there
  | construct i j =>
    refine iff_of_false (fun copies => ?_) id
    obtain ⟨u, used', spare', copied, refines'⟩ := copies ⟨0, 0, 0, w.memory.made + 1⟩
    exact copy_ill_formed (Nat.lt_succ_self _) copied refines'

/-- A queue whose content goes around its ring, and another one. -/
def around : List (Op Nat) :=
  [.act (.construct 0), .act (.construct 1), .act (.offer 0 3), .act (.offer 0 4), .act (.poll 0), .act (.offer 0 5),
    .act (.offer 1 8)]

theorem copies_iff_around : ∃ w : World Nat, Runs stepOp (fun _ _ => True) (World.start ⟨fun _ => ⟨7, 0⟩, 1⟩) around w ∧
    contentsOp around 0 = [4, 5] ∧ Copies w (contentsOp around) (.assign 1 0) := by
  have ran : ∃ w : World Nat, Runs stepOp (fun _ _ => True) (World.start ⟨fun _ => ⟨7, 0⟩, 1⟩) around w ∧
      (w.queues 0).isSome ∧ (w.queues 1).isSome := by
    apply Runs.exists_of_decide
    decide
  obtain ⟨w, run, here, there⟩ := ran
  refine ⟨w, run, rfl, (copies_iff run ?_).2 (.inl (by decide))⟩
  intro i mem
  obtain rfl | rfl : i = 1 ∨ i = 0 := by simpa [Copying.operands] using mem
  · exact there
  · exact here

/-- Assigned to itself the queue loses its content, and a copy that is constructed is no queue. -/
theorem copies_fail : ∃ w : World Nat, Runs stepOp (fun _ _ => True) (World.start ⟨fun _ => ⟨7, 0⟩, 1⟩) around w ∧
    ¬ Copies w (contentsOp around) (.assign 0 0) ∧ ¬ Copies w (contentsOp around) (.construct 2 0) := by
  have ran : ∃ w : World Nat, Runs stepOp (fun _ _ => True) (World.start ⟨fun _ => ⟨7, 0⟩, 1⟩) around w ∧
      (w.queues 0).isSome := by
    apply Runs.exists_of_decide
    decide
  obtain ⟨w, run, here⟩ := ran
  obtain ⟨q, here⟩ := Option.isSome_iff_exists.1 here
  obtain ⟨used, spare, refines⟩ := Refines.runOp run
  refine ⟨w, run, ?_, fun copies => ?_⟩
  · rw [copies_assign_iff refines here here]
    simp only [Distinct, ne_eq, not_true, false_or]
    decide
  · obtain ⟨u, used', spare', copied, refines'⟩ := copies ⟨0, 0, 0, w.memory.made + 1⟩
    exact copy_ill_formed (Nat.lt_succ_self _) copied refines'

end GameServer.Containers.CCircularQueue

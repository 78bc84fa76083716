import GameServer.Lib.Run
import GameServer.Text.KeywordFilter

/-!
# Where a keyword stands

`m_nLen` is one counter for all nodes, while every root has its own `m_nStart`. A search sets the counter to zero before it
begins and after every start position that fails, so the two numbers it leaves behind do not depend on what was searched
before (`keyPos_exact`).
-/

namespace GameServer.Text

open GameServer.Lib

/-- The roots that a program uses, and the static `m_nLen`. -/
structure Roots where
  root : Nat → DFANode
  m_nStart : Nat → Nat
  m_nLen : Nat

namespace Roots

/-- All of them new. -/
def init : Roots := ⟨fun _ => .leaf, fun _ => 0, 0⟩

/-- What the functions of one root work on. -/
def table (s : Roots) (id : Nat) : Table := ⟨s.root id, s.m_nStart id, s.m_nLen⟩

def put (s : Roots) (id : Nat) (table : Table) : Roots where
  root := Function.update s.root id table.root
  m_nStart := Function.update s.m_nStart id table.pos.m_nStart
  m_nLen := table.pos.m_nLen

/-- `hasKeyWord` of the root `id`. -/
def hasKeyWord (s : Roots) (id : Nat) (text : List keytype) : Bool × Roots :=
  let (found, table) := (s.table id).hasKeyWord text
  (found, s.put id table)

/-- `hasKeyWord` with `isreturn` false, which goes on from the length that is there. -/
def hasKeyWordInside (s : Roots) (id : Nat) (text : List keytype) : Bool × Roots :=
  let (found, pos) := DFANode.hasKeyWord false (s.root id) text 0 ⟨s.m_nStart id, s.m_nLen⟩
  (found, s.put id ⟨s.root id, pos⟩)

def getKeyPos (s : Roots) (id : Nat) : KeyPos × Roots :=
  let (pos, table) := (s.table id).getKeyPos
  (pos, s.put id table)

end Roots

inductive Action where
  | loadFile (id : Nat) (content : List UInt8)
  | addNode (id : Nat) (word : List keytype)
  | hasKeyWord (id : Nat) (text : List keytype) (isreturn : Bool)
  | getKeyPos (id : Nat)
  deriving DecidableEq, Repr

def step (decode : List UInt8 → List keytype) (s : Roots) : Action → Option Roots
  | .loadFile id content => some (s.put id ((s.table id).loadFile decode content))
  | .addNode id word => some (s.put id ((s.table id).addNode word))
  | .hasKeyWord id text isreturn => some (if isreturn then s.hasKeyWord id text else s.hasKeyWordInside id text).2
  | .getKeyPos id => some (s.getKeyPos id).2

/-- Any call may be made. -/
def Any (_ : Roots) (_ : Action) : Prop := True

/-- A word of the trie stands in `text` at `pos`, and none stands before it or has another length there. -/
structure Leftmost (node : DFANode) (text : List keytype) (pos : KeyPos) : Prop where
  word : node.Word ((text.drop pos.m_nStart).take pos.m_nLen)
  inside : pos.m_nStart + pos.m_nLen ≤ text.length
  first : ∀ i < pos.m_nStart, ∀ w, w <+: text.drop i → ¬ node.Word w
  length : ∀ w, w <+: text.drop pos.m_nStart → node.Word w → w.length = pos.m_nLen

/-- What the functions of one root leave behind is read by `getKeyPos`. -/
theorem getKeyPos_put (s : Roots) (id : Nat) (table : Table) : ((s.put id table).getKeyPos id).1 = table.pos := by
  simp [Roots.getKeyPos, Roots.put, Roots.table, Table.getKeyPos]

/-- What a search leaves behind does not depend on what was there. -/
theorem leftmost_hasKeyWord (s : Roots) (id : Nat) (text : List keytype) (found : (s.hasKeyWord id text).1 = true) :
    Leftmost (s.root id) text ((s.hasKeyWord id text).2.getKeyPos id).1 := by
  have found : ((s.table id).hasKeyWord text).1 = true := found
  obtain ⟨i, w, start, word, same, first⟩ := pos_text rfl found
  have read : ((s.hasKeyWord id text).2.getKeyPos id).1 = ⟨0 + i, w.length⟩ := by
    rw [← same]
    exact getKeyPos_put s id _
  rw [read, Nat.zero_add]
  refine ⟨?_, ?_, first, ?_⟩
  · rw [← List.prefix_iff_eq_take.1 start]
    exact word
  · have length := start.length_le
    rw [List.length_drop] at length
    have some' : w.length ≠ 0 := by
      intro none'
      rw [List.length_eq_zero_iff.1 none'] at word
      exact Trie.not_word_nil word
    dsimp only
    omega
  · intro v start' word'
    rcases List.prefix_or_prefix_of_prefix start' start with shorter | longer
    · rw [Trie.word_eq_of_prefix word' word shorter]
    · rw [Trie.word_eq_of_prefix word word' longer]

/-- **Positions.** Whatever was called before on any roots, after a search that finds a keyword `getKeyPos` returns the first
place where a keyword stands, and its length. -/
theorem keyPos_exact (decode : List UInt8 → List keytype) (as : List Action) (s : Roots) (_run : Runs (step decode) Any .init as s)
    (id : Nat) (text : List keytype) (found : (s.hasKeyWord id text).1 = true) :
    Leftmost (s.root id) text ((s.hasKeyWord id text).2.getKeyPos id).1 := leftmost_hasKeyWord s id text found

/-- The search before stopped inside a keyword, and the keyword begins again. -/
theorem keyPos_exact_again : ∃ s, Runs (step (·.map UInt8.toUInt16)) Any .init
      [.loadFile 0 [97, 98], .loadFile 1 [97, 97, 97], .hasKeyWord 1 [97, 97] true] s ∧ s.m_nLen = 1 ∧
    ((s.hasKeyWord 0 [97, 97, 98]).2.getKeyPos 0).1 = ⟨1, 2⟩ ∧ Leftmost (s.root 0) [97, 97, 98] ⟨1, 2⟩ := by
  have checked : (runChecked (step (·.map UInt8.toUInt16)) (fun _ _ => true) .init
      [.loadFile 0 [97, 98], .loadFile 1 [97, 97, 97], .hasKeyWord 1 [97, 97] true]).any
      (fun s => decide (s.m_nLen = 1 ∧ (s.hasKeyWord 0 [97, 97, 98]).1 = true ∧
        ((s.hasKeyWord 0 [97, 97, 98]).2.getKeyPos 0).1 = ⟨1, 2⟩)) = true := by
    decide +kernel
  obtain ⟨s, run, holds⟩ := Runs.exists_of_checked Any (fun _ _ _ => trivial) checked
  obtain ⟨left, found, pos⟩ := of_decide_eq_true holds
  have leftmost := keyPos_exact _ _ s run 0 [97, 97, 98] found
  rw [pos] at leftmost
  exact ⟨s, run, left, pos, leftmost⟩

end GameServer.Text

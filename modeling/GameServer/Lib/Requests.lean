import Mathlib.Data.List.Nodup
import Mathlib.Logic.Function.Basic

/-!
# Requests that are told apart by keys

Clients issue requests to a server through a table that remembers, under a key that the answer
repeats, who asked. An entry that is already there is kept, an answer that finds no entry is
dropped, and one that finds an entry goes to the client of that entry and removes it. The
server answers every request once and in any order. Requests are numbered as they are issued;
`pending` are those that the server has still to answer and `sent` the answers that went to a
client.

If every request finds its key free in the table, every request that the server has answered
was sent once, to the client that issued it (`Routed`).
-/

namespace GameServer.Lib

structure Requests (K C : Type) where
  table : K → Option C
  issued : List (K × C)
  pending : List Nat
  sent : List (Nat × C)

namespace Requests

variable {K C : Type} {q : Requests K C} {key : K} {client : C} {r : Nat}

def issue [DecidableEq K] (q : Requests K C) (key : K) (client : C) : Requests K C where
  table := Function.update q.table key (some ((q.table key).getD client))
  issued := q.issued ++ [(key, client)]
  pending := q.pending ++ [q.issued.length]
  sent := q.sent

def answer [DecidableEq K] (q : Requests K C) (r : Nat) (key : K) : Requests K C :=
  match q.table key with
  | none => { q with pending := q.pending.erase r }
  | some client =>
    { q with
      table := Function.update q.table key none
      pending := q.pending.erase r
      sent := q.sent ++ [(r, client)] }

/-- The answers that went out for request `r`. -/
def answers (q : Requests K C) (r : Nat) : List (Nat × C) := q.sent.filter fun answer => answer.1 = r

/-- Every request is pending, with an entry of its own in the table, or was answered once, to
the client that issued it. -/
structure Routed (q : Requests K C) : Prop where
  nodup : q.pending.Nodup
  pending_lt : ∀ r ∈ q.pending, r < q.issued.length
  sent_lt : ∀ answer ∈ q.sent, answer.1 < q.issued.length
  entry : ∀ r ∈ q.pending, ∀ key client, q.issued[r]? = some (key, client) → q.table key = some client
  apart : ∀ r ∈ q.pending, ∀ r' ∈ q.pending, ∀ key client client', q.issued[r]? = some (key, client) →
    q.issued[r']? = some (key, client') → r = r'
  answered : ∀ r key client, q.issued[r]? = some (key, client) →
    q.answers r = if r ∈ q.pending then [] else [(r, client)]

theorem Routed.start (table : K → Option C) : Routed (⟨table, [], [], []⟩ : Requests K C) :=
  ⟨List.nodup_nil, nofun, nofun, nofun, nofun, nofun⟩

theorem issued_cases {key' : K} {client' : C} (there : (q.issued ++ [(key', client')])[r]? = some (key, client)) :
    q.issued[r]? = some (key, client) ∧ r ≠ q.issued.length ∨ r = q.issued.length ∧ key = key' ∧ client = client' := by
  rcases Nat.lt_trichotomy r q.issued.length with lt | eq | gt
  · rw [List.getElem?_append_left lt] at there
    exact .inl ⟨there, Nat.ne_of_lt lt⟩
  · rw [eq, List.getElem?_concat_length] at there
    cases there
    exact .inr ⟨eq, rfl, rfl⟩
  · have beyond : (q.issued ++ [(key', client')]).length ≤ r := by
      rw [List.length_append]
      exact gt
    rw [List.getElem?_eq_none beyond] at there
    cases there

variable [DecidableEq K]

/-- A request whose key is free. -/
theorem Routed.issue (routed : Routed q) (free : q.table key = none) : Routed (q.issue key client) := by
  have fresh : q.issued.length ∉ q.pending := fun mem => Nat.lt_irrefl _ (routed.pending_lt _ mem)
  -- the new key is none of the pending ones
  have other : ∀ r ∈ q.pending, ∀ client, q.issued[r]? ≠ some (key, client) := by
    intro r mem client there
    have entry := routed.entry r mem key client there
    rw [free] at entry
    cases entry
  have member : ∀ r, r ∈ (q.issue key client).pending ↔ r ∈ q.pending ∨ r = q.issued.length := by
    intro r
    simp [Requests.issue]
  have longer : (q.issue key client).issued.length = q.issued.length + 1 := by simp [Requests.issue]
  refine ⟨?_, fun r mem => ?_, fun answer mem => ?_, fun r mem key' client' there => ?_,
    fun r mem r' mem' key' c c' there there' => ?_, fun r key' client' there => ?_⟩
  · refine List.nodup_append.2 ⟨routed.nodup, List.nodup_singleton _, fun r mem r' mem' => ?_⟩
    rw [List.mem_singleton.1 mem']
    exact Nat.ne_of_lt (routed.pending_lt r mem)
  · rw [longer]
    rcases (member r).1 mem with mem | rfl
    · exact Nat.lt_succ_of_lt (routed.pending_lt r mem)
    · exact Nat.lt_succ_self _
  · rw [longer]
    exact Nat.lt_succ_of_lt (routed.sent_lt answer mem)
  · show Function.update q.table key (some ((q.table key).getD client)) key' = some client'
    rcases issued_cases there with ⟨was, old⟩ | ⟨rfl, rfl, rfl⟩
    · have waits : r ∈ q.pending := ((member r).1 mem).resolve_right old
      have differs : key' ≠ key := by
        rintro rfl
        exact other r waits client' was
      rw [Function.update_of_ne differs]
      exact routed.entry r waits key' client' was
    · rw [Function.update_self, free]
      rfl
  · rcases issued_cases there with ⟨was, old⟩ | ⟨rfl, rfl, rfl⟩
    · have waits : r ∈ q.pending := ((member r).1 mem).resolve_right old
      rcases issued_cases there' with ⟨was', old'⟩ | ⟨rfl, rfl, rfl⟩
      · have waits' : r' ∈ q.pending := ((member r').1 mem').resolve_right old'
        exact routed.apart r waits r' waits' key' c c' was was'
      · exact (other r waits c was).elim
    · rcases issued_cases there' with ⟨was', old'⟩ | ⟨rfl, -, -⟩
      · have waits' : r' ∈ q.pending := ((member r').1 mem').resolve_right old'
        exact (other r' waits' c' was').elim
      · rfl
  · show q.answers r = _
    rcases issued_cases there with ⟨was, old⟩ | ⟨rfl, rfl, rfl⟩
    · rw [routed.answered r key' client' was]
      simp only [member r, old, or_false]
    · rw [if_pos ((member _).2 (.inr rfl)), answers, List.filter_eq_nil_iff]
      intro answer mem
      simpa using Nat.ne_of_lt (routed.sent_lt answer mem)

/-- An answer of the server to a pending request. -/
theorem Routed.answer (routed : Routed q) (mem : r ∈ q.pending) (there : q.issued[r]? = some (key, client)) :
    Routed (q.answer r key) := by
  have entry : q.table key = some client := routed.entry r mem key client there
  have member : ∀ r', r' ∈ q.pending.erase r ↔ r' ≠ r ∧ r' ∈ q.pending := fun r' => routed.nodup.mem_erase_iff
  simp only [Requests.answer, entry]
  refine ⟨routed.nodup.erase r, fun r' mem' => ?_, fun answer sent => ?_, fun r' mem' key' client' there' => ?_,
    fun r₁ mem₁ r₂ mem₂ => ?_, fun r' key' client' there' => ?_⟩
  · exact routed.pending_lt r' ((member r').1 mem').2
  · rcases List.mem_append.1 sent with sent | sent
    · exact routed.sent_lt answer sent
    · rw [List.mem_singleton.1 sent]
      exact routed.pending_lt r mem
  · obtain ⟨differs, waits⟩ := (member r').1 mem'
    have otherKey : key' ≠ key := by
      rintro rfl
      exact differs (routed.apart r' waits r mem key' client' client there' there)
    show Function.update q.table key none key' = some client'
    rw [Function.update_of_ne otherKey]
    exact routed.entry r' waits key' client' there'
  · exact routed.apart r₁ ((member r₁).1 mem₁).2 r₂ ((member r₂).1 mem₂).2
  · have before := routed.answered r' key' client' there'
    show (q.sent ++ [(r, client)]).filter (fun answer => answer.1 = r') = if r' ∈ q.pending.erase r then [] else [(r', client')]
    rw [List.filter_append]
    change q.answers r' ++ _ = _
    by_cases same : r' = r
    · subst same
      rw [there] at there'
      cases there'
      rw [before, if_pos mem, if_neg fun mem => ((member r').1 mem).1 rfl]
      simp
    · rw [before]
      have absent : [(r, client)].filter (fun answer => answer.1 = r') = [] := by simpa using Ne.symm same
      rw [absent, List.append_nil]
      simp only [member r', ne_eq, same, not_false_eq_true, true_and]

end Requests

end GameServer.Lib

import GameServer.Net.WebSocket
import Mathlib.Data.List.Induction

/-!
# Packs across payloads

Every payload goes to the end of `total_data`, and the loop over `GetNetPackBuffer` takes the whole packs out of it. What
the loop has taken from a first part of the bytes it takes from all of them, and it goes on with what was left
(`drain_append`). So it does not matter how the bytes are cut into payloads (`payloads_whole`).
-/

namespace GameServer.Net.WebSocket

open GameServer.Lib

/-- One payload, after the packs and the rest of those before it; an unlawful head has ended the connection. -/
def receive (d : Drained) (payload : List UInt8) : Drained :=
  if d.unlawful then d
  else
    let e := drain (d.rest ++ payload)
    { e with packs := d.packs ++ e.packs }

/-- The payloads of a connection, one after the other. -/
def receiveAll (payloads : List (List UInt8)) : Drained := payloads.foldl receive ⟨[], [], false⟩

/-- What `readWebPackDataReady` does to the packs, to `total_data` and to the connection is `receive`. -/
theorem readWebPackDataReady_receive (c : NetConnect) (bytes : List UInt8) : ∃ payload,
    let d := receive ⟨c.packs, c.totalData, false⟩ payload
    (readWebPackDataReady c bytes).packs = d.packs ∧ (readWebPackDataReady c bytes).totalData = d.rest ∧
      ((readWebPackDataReady c bytes).reading = none ↔ d.unlawful = true) := by
  let data := overwrite c.data bytes
  refine ⟨decodingDatas (data.drop (if c.head.mask then 4 else 0)) c.head.mask (if c.head.mask then data.take 4 else c.maskKey), ?_⟩
  dsimp only [receive, readWebPackDataReady]
  rw [if_neg Bool.false_ne_true]
  generalize drain (c.totalData ++ _) = d
  by_cases unlawful : d.unlawful = true
  · rw [if_pos unlawful]
    exact ⟨rfl, rfl, iff_of_true rfl unlawful⟩
  · rw [if_neg unlawful]
    exact ⟨rfl, rfl, iff_of_false (by simp [readWebPackHead]) unlawful⟩

section Append

variable {a b rest : List UInt8} {p : NetPack}

theorem take_size_append (enough : ¬ a.length < PackHead.size) (b : List UInt8) :
    (a ++ b).take PackHead.size = a.take PackHead.size :=
  List.take_append_of_le_length (Nat.le_of_not_lt enough)

/-- A head that is not lawful stays so when more bytes come. -/
theorem unlawful_append (unlawful : getNetPackBuffer a = .unlawful) (b : List UInt8) : getNetPackBuffer (a ++ b) = .unlawful := by
  simp only [getNetPackBuffer] at unlawful ⊢
  split_ifs at unlawful with short lawful
  have enough : ¬ (a ++ b).length < PackHead.size := by
    rw [List.length_append]
    omega
  rw [if_neg enough, take_size_append short, if_pos lawful]

/-- A pack that is there is the same when more bytes come. -/
theorem pack_append (pack : getNetPackBuffer a = .pack p rest) (b : List UInt8) :
    getNetPackBuffer (a ++ b) = .pack p (rest ++ b) := by
  simp only [getNetPackBuffer] at pack ⊢
  split_ifs at pack with short lawful small
  obtain ⟨rfl, rfl⟩ := GetResult.pack.inj pack
  have enough : ¬ (a ++ b).length < PackHead.size := by
    rw [List.length_append]
    omega
  have whole : ¬ (a ++ b).length < PackHead.size + (PackHead.ofBytes (a.take PackHead.size)).datasize.toNat := by
    rw [List.length_append]
    omega
  rw [if_neg enough, take_size_append short, if_neg (not_not.2 lawful), if_neg whole]
  congr 1
  · rw [List.drop_append_of_le_length (by omega), List.take_append_of_le_length]
    rw [List.length_drop]
    omega
  · rw [List.drop_append_of_le_length (by omega)]

/-- **The loop goes on where it stopped.** -/
theorem drain_append (a b : List UInt8) : drain (a ++ b) =
    if (drain a).unlawful then { drain a with rest := (drain a).rest ++ b }
    else { drain ((drain a).rest ++ b) with packs := (drain a).packs ++ (drain ((drain a).rest ++ b)).packs } := by
  induction size : a.length using Nat.strongRecOn generalizing a with
  | _ n ih =>
    cases result : getNetPackBuffer a with
    | wait =>
      rw [drain_of_wait result, if_neg Bool.false_ne_true, List.nil_append]
    | unlawful =>
      rw [drain_of_unlawful result, drain_of_unlawful (unlawful_append result b), if_pos rfl]
    | pack p rest =>
      have less := length_of_pack result
      have after := ih rest.length (by omega) rest rfl
      rw [drain_of_pack result, drain_of_pack (pack_append result b), after]
      split_ifs <;> rfl

end Append

/-- The payloads so far have the outcome of all their bytes at once. After a break the bytes that came later are missing. -/
structure Agreeing (d whole : Drained) : Prop where
  packs : d.packs = whole.packs
  unlawful : d.unlawful = whole.unlawful
  rest : d.unlawful = false → d.rest = whole.rest
  place : d.rest <+: whole.rest

theorem Agreeing.receive {d : Drained} {a : List UInt8} (agreeing : Agreeing d (drain a)) (payload : List UInt8) :
    Agreeing (receive d payload) (drain (a ++ payload)) := by
  obtain ⟨packs, unlawful, rest, place⟩ := agreeing
  rw [drain_append, WebSocket.receive, unlawful]
  split_ifs with broken
  · refine ⟨packs, unlawful, ?_, place.trans (List.prefix_append _ _)⟩
    intro lawful
    rw [unlawful, broken] at lawful
    cases lawful
  · have same : d.rest = (drain a).rest := rest (by rw [unlawful]; simpa using broken)
    dsimp only
    rw [same, packs]
    exact ⟨rfl, rfl, fun _ => rfl, List.prefix_refl _⟩

/-- **Payloads.** However the bytes are cut into payloads, the packs, the rest and the break are those of the bytes at once. -/
theorem payloads_whole (payloads : List (List UInt8)) : Agreeing (receiveAll payloads) (drain payloads.flatten) := by
  induction payloads using List.reverseRecOn with
  | nil => exact ⟨rfl, rfl, fun _ => rfl, List.prefix_refl _⟩
  | append_singleton payloads payload ih =>
    rw [receiveAll, List.foldl_append, List.flatten_append, List.flatten_singleton]
    exact ih.receive payload

end GameServer.Net.WebSocket

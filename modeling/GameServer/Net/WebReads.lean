import GameServer.Net.WebSocket

/-!
# Short reads of WebSocket payloads

`ReadWebPackData` asks for a whole payload with `async_read_some` and
`ReadWebPackDataReady` never looks at the count it gets. A short read therefore
closes the frame early: the missing bytes are taken from the old buffer and the
rest of the payload is read as the next header. `consumed` records it, since
each frame's entry is the bytes read for it, so a run agrees with the reads that
return all they ask for exactly when none of its reads was short
(`chunked_reads_agree`).
-/

namespace GameServer.Net.WebSocket

open GameServer.Lib

/-- Any completion the transport may give. -/
def Any (_ : NetConnect) (_ : Nat) : Prop := True

/-- The read returns all it asked for. -/
def Whole (c : NetConnect) (n : Nat) : Prop := n = c.asked

instance (c : NetConnect) (n : Nat) : Decidable (Whole c n) := inferInstanceAs (Decidable (n = c.asked))

/-- A completed read came from an outstanding one that admits the count. -/
theorem complete_eq_some {c d : NetConnect} {n : Nat} (next : complete c n = some d) :
    ∃ r, c.reading = some r ∧ r.admits (c.want r) n ∧ n ≤ c.stream.length ∧
      d = ready { c with stream := c.stream.drop n, frameBytes := c.frameBytes + n } r (c.stream.take n) := by
  unfold complete at next
  split at next
  · cases next
  · next r reading =>
    split at next
    · next ok => exact ⟨r, reading, ok.1, ok.2, (Option.some.inj next).symm⟩
    · cases next

@[simp] theorem consumed_readWebPackHeadReady (c : NetConnect) (bytes : List UInt8) :
    (readWebPackHeadReady c bytes).consumed = c.consumed := by
  simp only [readWebPackHeadReady]
  split_ifs <;> rfl

@[simp] theorem consumed_readWebPackHeadBodyReady (c : NetConnect) (bytes : List UInt8) :
    (readWebPackHeadBodyReady c bytes).consumed = c.consumed := by
  simp only [readWebPackHeadBodyReady, readWebPackData]
  split_ifs <;> rfl

@[simp] theorem consumed_readWebPackDataReady (c : NetConnect) (bytes : List UInt8) :
    (readWebPackDataReady c bytes).consumed = c.consumed ++ [c.frameBytes] := by
  simp only [readWebPackDataReady]
  split_ifs <;> rfl

/-- A payload read closes its frame with the bytes read for it. -/
theorem consumed_of_data {c d : NetConnect} {n : Nat} (next : complete c n = some d)
    (reading : c.reading = some .data) : d.consumed = c.consumed ++ [c.frameBytes + n] := by
  obtain ⟨r, reading', -, -, rfl⟩ := complete_eq_some next
  obtain rfl : Reading.data = r := Option.some.inj (reading.symm.trans reading')
  exact consumed_readWebPackDataReady _ _

theorem consumed_grows {c d : NetConnect} {n : Nat} (next : complete c n = some d) : c.consumed <+: d.consumed := by
  obtain ⟨r, -, -, -, rfl⟩ := complete_eq_some next
  cases r with
  | head => simp [ready]
  | headBody readdata => simp [ready]
  | data => simp [ready]

theorem consumed_grows_reaches {c d : NetConnect} (way : Reaches completeAll c d) : c.consumed <+: d.consumed :=
  way.invariant (fun d => c.consumed <+: d.consumed) (List.prefix_refl _)
    fun _ _ grown next => grown.trans (consumed_grows next)

/-- Only a payload read can be short. -/
theorem reading_of_short {c d : NetConnect} {n : Nat} (next : complete c n = some d) (short : n ≠ c.asked) :
    c.reading = some .data := by
  obtain ⟨r, reading, admits, -, -⟩ := complete_eq_some next
  cases r with
  | head => exact absurd (by simpa [NetConnect.asked, reading, Reading.admits] using admits) short
  | headBody readdata => exact absurd (by simpa [NetConnect.asked, reading, Reading.admits] using admits) short
  | data => exact reading

/-- A run of whole reads is the run in which every read returns all it asks for. -/
theorem Reaches.of_whole {c d : NetConnect} {ns : List Nat} (run : Runs complete Whole c ns d) :
    Reaches completeAll c d := by
  induction run with
  | refl => exact .refl _
  | snoc _ whole next ih =>
    rw [whole] at next
    exact ih.trans (.single next)

/-- `c` is a state whole reads could have left, as far as packs and frame sizes show. -/
def Agrees (stream : List UInt8) (c : NetConnect) : Prop :=
  ∃ d, Reaches completeAll (start stream) d ∧ d.packs = c.packs ∧ d.consumed = c.consumed

/-- `c` comes after a short read in a state whole reads had led to. -/
def AfterShort (c₀ c : NetConnect) : Prop :=
  ∃ d n e, Reaches completeAll c₀ d ∧ complete d n = some e ∧ n ≠ d.asked ∧ e.consumed <+: c.consumed

theorem whole_or_short {c d : NetConnect} {ns : List Nat} (run : Runs complete Any c ns d) :
    Runs complete Whole c ns d ∨ AfterShort c d := by
  induction run with
  | refl => exact .inl .refl
  | @snoc as n t u _ _ next ih =>
    rcases ih with whole | ⟨d, m, e, way, cut, short, before⟩
    · by_cases full : n = t.asked
      · exact .inl (whole.snoc full next)
      · exact .inr ⟨t, n, u, Reaches.of_whole whole, next, full, List.prefix_refl _⟩
    · exact .inr ⟨d, m, e, way, cut, short, before.trans (consumed_grows next)⟩

/-- After a short read the frame sizes are not those of whole reads any more. -/
theorem not_agrees_of_short {stream : List UInt8} {c : NetConnect} (after : AfterShort (start stream) c) :
    ¬ Agrees stream c := by
  rintro ⟨d, way, -, same⟩
  obtain ⟨e, n, e', way', cut, short, before⟩ := after
  rw [← same] at before
  have data := reading_of_short cut short
  rw [consumed_of_data cut data] at before
  rcases way'.comparable way with ahead | behind
  · cases ahead with
    | refl =>
      have on := before.length_le
      rw [List.length_append, List.length_singleton] at on
      omega
    | step next rest =>
      have full := consumed_of_data next data
      have sizes : e.consumed ++ [e.frameBytes + n] = e.consumed ++ [e.frameBytes + e.asked] :=
        (List.prefix_of_prefix_length_le before (full ▸ consumed_grows_reaches rest) (by simp)).eq_of_length (by simp)
      have := (List.append_inj' sizes rfl).2
      simp only [List.cons.injEq, and_true] at this
      omega
  · have back := (consumed_grows_reaches behind).length_le
    have on := before.length_le
    rw [List.length_append, List.length_singleton] at on
    omega

/-- One unmasked frame that carries a one-byte pack. -/
def cutStream : List UInt8 := [0x82, 15] ++ (Message.mk 7 1 [9]).wire

/-- The transport delivers the payload all but its last byte. -/
def cutReads : List Nat := [2, 0, 14]

/-- **Chunking.** However the transport cuts the stream, the packs delivered and the
bytes consumed for each frame are those of whole reads exactly when no payload read
was short. -/
theorem chunked_reads_agree (stream : List UInt8) (ns : List Nat) (c : NetConnect)
    (run : Runs complete Any (start stream) ns c) :
    Agrees stream c ↔ Runs complete Whole (start stream) ns c := by
  constructor
  · intro agrees
    rcases whole_or_short run with whole | after
    · exact whole
    · exact absurd agrees (not_agrees_of_short after)
  · intro whole
    exact ⟨c, Reaches.of_whole whole, rfl, rfl⟩

/-- The state some reads of `cutStream` lead to. -/
def cutState (ns : List Nat) : NetConnect :=
  (runChecked complete (fun _ _ => true) (start cutStream) ns).getD (start cutStream)

theorem chunked_reads_agree_whole : Agrees cutStream (cutState [2, 0, 15]) := by
  have checked : runChecked complete (fun c n => decide (Whole c n)) (start cutStream) [2, 0, 15] =
      some (cutState [2, 0, 15]) := by decide +kernel
  have run : Runs complete Whole (start cutStream) [2, 0, 15] (cutState [2, 0, 15]) :=
    Runs.of_checked (fun _ _ whole => of_decide_eq_true whole) checked
  exact (chunked_reads_agree _ _ _ (run.mono fun _ _ _ => trivial)).2 run

/-- The short read makes a pack with a body the peer never sent: the byte is missing
and the buffer's zero stands in for it. -/
theorem chunked_reads_forge :
    Runs complete Any (start cutStream) cutReads (cutState cutReads) ∧
      (cutState cutReads).packs.map NetPack.message = [⟨7, 1, [0]⟩] ∧
      Settles completeAll (start cutStream) (cutState [2, 0, 15]) ∧
      (cutState [2, 0, 15]).packs.map NetPack.message = [⟨7, 1, [9]⟩] ∧
      ¬ Agrees cutStream (cutState cutReads) := by
  have run : Runs complete Any (start cutStream) cutReads (cutState cutReads) := by
    refine Runs.of_checked (fun _ _ _ => trivial) (?_ : runChecked complete (fun _ _ => true) _ _ = _)
    decide +kernel
  have header : completeAll (start cutStream) = some (cutState [2]) := by decide +kernel
  have length : completeAll (cutState [2]) = some (cutState [2, 0]) := by decide +kernel
  have payload : completeAll (cutState [2, 0]) = some (cutState [2, 0, 15]) := by decide +kernel
  have rest : completeAll (cutState [2, 0, 15]) = none := by decide +kernel
  have short : AfterShort (start cutStream) (cutState cutReads) :=
    ⟨cutState [2, 0], 14, cutState cutReads, .step header (.single length), by decide +kernel, by decide +kernel,
      List.prefix_refl _⟩
  exact ⟨run, by decide +kernel, ⟨.step header (.step length (.single payload)), rest⟩, by decide +kernel,
    not_agrees_of_short short⟩

end GameServer.Net.WebSocket

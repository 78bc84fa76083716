import GameServer.Net.WebFrames

/-!
# Payload lengths across frames

A 16-bit or 7-bit length is written to the low two bytes of the union and read
as the whole 64-bit word. After a frame of `65536` bytes or more the upper bytes
are not zero, and they stay so until the next 64-bit length. Every frame is read
with the length it carries exactly when no frame in a shorter encoding meets such
bytes (`frame_lengths`); one of the two frames of `staleFrames` does.
-/

namespace GameServer.Net.WebSocket

open GameServer.Lib

theorem lens_grows {c d : NetConnect} (next : completeAll c = some d) : c.lens <+: d.lens := by
  obtain ⟨r, -, -, -, rfl⟩ := complete_eq_some next
  cases r with
  | head =>
    simp only [ready, readWebPackHeadReady]
    split_ifs <;> exact List.prefix_refl _
  | headBody readdata =>
    simp only [ready, readWebPackHeadBodyReady, readWebPackData]
    split_ifs <;> exact List.prefix_append _ _
  | data =>
    simp only [ready, readWebPackDataReady]
    split_ifs <;> exact List.prefix_refl _

theorem lens_grows_reaches {c d : NetConnect} (way : Reaches completeAll c d) : c.lens <+: d.lens :=
  way.invariant (fun d => c.lens <+: d.lens) (List.prefix_refl _) fun _ _ grown next => grown.trans (lens_grows next)

/-- The reader at `d` has used the lengths in `ns`, one for each frame it got to; where it
has read to the end of the stream it has used them all. -/
structure Used (ns : List Nat) (d : NetConnect) : Prop where
  inOrder : d.lens <+: ns
  complete : completeAll d = none → d.broken = none → d.thrown = false → d.lens = ns

theorem Used.back {ns : List Nat} {d e : NetConnect} (used : Used ns e) (way : Reaches completeAll d e) : Used ns d where
  inOrder := (lens_grows_reaches way).trans used.inOrder
  complete stop := by
    obtain rfl := way.eq_of_stop stop
    exact used.complete stop

theorem used_of_frames (fs : List Frame) : ∀ {c : NetConnect}, AtFrame c (wires fs) → Fresh c.high c.totalData fs →
    ∀ d, Reaches completeAll c d → Used (c.lens ++ fs.map Frame.length) d := by
  induction fs with
  | nil =>
    intro c at' _ d way
    obtain rfl := way.eq_of_stop at'.settled
    exact ⟨by simp, by simp⟩
  | cons f fs ih =>
    intro c at' fresh d way
    have stream : AtFrame c (f.wire ++ wires fs) := at'
    have ahead : c.lens ++ [f.length] <+: c.lens ++ (f :: fs).map Frame.length := by simp
    by_cases close : f.opcode = CLOSE_FRAME
    · obtain ⟨e, rest, lens, -, broken⟩ := read_close stream close
      have used : Used (c.lens ++ (f :: fs).map Frame.length) e := ⟨by simp [lens], by simp [broken]⟩
      exact used.back (rest.of_reaches way).1
    obtain ⟨latest, later⟩ := fresh.resolve_left close
    have right : Right c f := (right_iff c f).2 latest
    by_cases small : f.body.length < 2 ^ 31
    · have first := read_frame stream close right small
      have lens : (c.afterFrame f (wires fs)).lens = c.lens ++ [f.length] := by rw [lens_afterFrame, right]
      cases lawful : (drain (c.totalData ++ f.payload)).unlawful with
      | true =>
        obtain ⟨stopped, broken⟩ := afterFrame_stops (wires fs) lawful
        have used : Used (c.lens ++ (f :: fs).map Frame.length) (c.afterFrame f (wires fs)) :=
          ⟨lens ▸ ahead, by simp [broken]⟩
        have rest : Settles completeAll c (c.afterFrame f (wires fs)) := ⟨first, completeAll_of_stopped stopped⟩
        exact used.back (rest.of_reaches way).1
      | false =>
        have later := later ⟨close, small, lawful⟩
        rw [← high_afterFrame (wires fs), ← totalData_afterFrame c f (wires fs)] at later
        have next := ih (afterFrame_goes_on (wires fs) at'.lenMem lawful) later
        rw [lens, List.append_assoc] at next
        rcases first.comparable way with after | before
        · exact next d after
        · exact (next _ (.refl _)).back before
    · have rest := read_oversize stream close right (by omega)
      have used : Used (c.lens ++ (f :: fs).map Frame.length)
          { c.gotLength f (wires fs) with reading := none, thrown := true } := by
        refine ⟨?_, by simp⟩
        simp only [NetConnect.gotLength]
        rw [show leVal (f.enc.mem f.length c.lenMem) = f.length from right]
        exact ahead
      exact used.back (rest.of_reaches way).1

/-- The reader goes on with the length the union holds, right or wrong. -/
theorem lens_read_length {c : NetConnect} {f : Frame} {rest : List UInt8} (at' : AtFrame c (f.wire ++ rest))
    (live : f.opcode ≠ CLOSE_FRAME) :
    ∃ d, Reaches completeAll c d ∧ d.lens = c.lens ++ [leVal (f.enc.mem f.length c.lenMem)] := by
  refine ⟨_, read_length at' live, ?_⟩
  unfold readWebPackData
  split_ifs <;> rfl

theorem fresh_of_used (fs : List Frame) : ∀ {c : NetConnect}, AtFrame c (wires fs) →
    (∀ d, Reaches completeAll c d → Used (c.lens ++ fs.map Frame.length) d) → Fresh c.high c.totalData fs := by
  induction fs with
  | nil => intro c _ _; trivial
  | cons f fs ih =>
    intro c at' used
    have stream : AtFrame c (f.wire ++ wires fs) := at'
    by_cases close : f.opcode = CLOSE_FRAME
    · exact .inl close
    have right : Right c f := by
      obtain ⟨d, way, lens⟩ := lens_read_length stream close
      have inOrder := (used d way).inOrder
      rw [lens, List.map_cons, List.prefix_append_right_inj] at inOrder
      simpa [Right] using inOrder
    refine .inr ⟨(right_iff c f).1 right, ?_⟩
    rintro ⟨live, small, lawful⟩
    have first := read_frame stream live right small
    have next : Fresh (c.afterFrame f (wires fs)).high (c.afterFrame f (wires fs)).totalData fs := by
      apply ih (afterFrame_goes_on (wires fs) at'.lenMem lawful)
      intro d way
      rw [lens_afterFrame, right, List.append_assoc]
      exact used d (first.trans way)
    rwa [high_afterFrame, totalData_afterFrame] at next

/-- **Frame lengths.** The reader uses for each frame the length that frame carries, in every
state it gets to, exactly when it meets no frame in a shorter encoding after a 64-bit length
that reached `65536`. -/
theorem frame_lengths (fs : List Frame) :
    (∀ c, Reaches completeAll (start (wires fs)) c → Used (fs.map Frame.length) c) ↔ Fresh 0 [] fs := by
  have at' := atFrame_start (wires fs)
  constructor
  · intro used
    exact fresh_of_used fs at' used
  · intro fresh
    exact used_of_frames fs at' fresh

/-- The head of a pack with a body of `65535` bytes. -/
def bigHead : PackHead := { (Message.mk 7 1 []).head with datasize := 65535 }

theorem length_bigPayload : (bigHead.bytes ++ List.replicate 65522 0).length = 65536 := by
  rw [List.length_append, PackHead.length_bytes, List.length_replicate, PackHead.size]

/-- A frame of `65536` bytes, all of them in the middle of a pack. -/
def bigFrame : Frame := .binary .long (bigHead.bytes ++ List.replicate 65522 0) (by
  rw [length_bigPayload]
  decide)

/-- A one-byte frame in the shortest encoding. -/
def byteFrame : Frame := .binary .short [0] (by decide)

def staleFrames : List Frame := [bigFrame, byteFrame]

/-- The one-byte frame is read as one of `65537` bytes. -/
theorem frame_lengths_stale : ∃ c, Reaches completeAll (start (wires staleFrames)) c ∧ c.lens = [65536, 65537] ∧
    staleFrames.map Frame.length = [65536, 1] ∧ ¬ c.lens <+: staleFrames.map Frame.length := by
  have big : bigFrame.length = 65536 := length_bigPayload
  have lens : staleFrames.map Frame.length = [65536, 1] := by rw [staleFrames, List.map_cons, big]; rfl
  have at' : AtFrame (start (wires staleFrames)) (bigFrame.wire ++ wires [byteFrame]) :=
    atFrame_start _
  have right : Right (start (wires staleFrames)) bigFrame := (right_iff _ _).2 (.inl rfl)
  have first := read_frame at' (by decide) right (by rw [bigFrame.length_body, big]; decide)
  have wait : getNetPackBuffer bigFrame.payload = .wait := by
    rw [bigFrame, Frame.binary, getNetPackBuffer_head bigHead rfl, if_pos]
    rw [List.length_replicate]
    decide
  have lawful : (drain ((start (wires staleFrames)).totalData ++ bigFrame.payload)).unlawful = false := by
    rw [start, List.nil_append, drain_of_wait wait]
  have next : AtFrame ((start (wires staleFrames)).afterFrame bigFrame (wires [byteFrame])) (byteFrame.wire ++ wires []) :=
    afterFrame_goes_on _ at'.lenMem lawful
  obtain ⟨c, way, used⟩ := lens_read_length next (by decide)
  have high : leVal (List.drop 2 ((start (wires staleFrames)).afterFrame bigFrame (wires [byteFrame])).lenMem) = 1 := by
    rw [← NetConnect.high, high_afterFrame, Frame.leaves, big]
    rfl
  rw [lens_afterFrame, right, big, byteFrame.leVal_mem, high] at used
  have lens' : c.lens = [65536, 65537] := used
  refine ⟨c, first.trans way, lens', lens, ?_⟩
  rw [lens', lens]
  decide

end GameServer.Net.WebSocket

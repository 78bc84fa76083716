import Mathlib.Order.Nat
import GameServer.Net.WebFrames

/-!
# Ping and pong frames

`ReadWebPackHeadReady` looks at the opcode for close frames only, so the payload
of a ping or pong goes to `totalData` like that of a data frame. `deliver` is what
the reader makes of a sequence of frames (`settles_deliver`). Control frames
without payload leave it alone; any other one falsifies some pack around it
(`control_frames`).
-/

namespace GameServer.Net.WebSocket

open GameServer.Lib

/-- The packs a sequence of frames delivers when `total` is waiting in `totalData`. -/
def deliver : List UInt8 → List Frame → List NetPack
  | _, [] => []
  | total, f :: fs =>
    if f.opcode = CLOSE_FRAME then []
    else if f.body.length < 2 ^ 31 then
      let d := drain (total ++ f.payload)
      d.packs ++ if d.unlawful then [] else deliver d.rest fs
    else []

theorem settles_deliver (fs : List Frame) : ∀ {c : NetConnect}, AtFrame c (wires fs) → Fresh c.high c.totalData fs →
    ∃ d, Settles completeAll c d ∧ d.packs = c.packs ++ deliver c.totalData fs := by
  induction fs with
  | nil =>
    intro c at' _
    exact ⟨c, ⟨.refl c, at'.settled⟩, by simp [deliver]⟩
  | cons f fs ih =>
    intro c at' fresh
    have stream : AtFrame c (f.wire ++ wires fs) := at'
    unfold deliver
    by_cases close : f.opcode = CLOSE_FRAME
    · obtain ⟨d, rest, -, packs, -⟩ := read_close stream close
      exact ⟨d, rest, by simp [packs, close]⟩
    rw [if_neg close]
    obtain ⟨latest, later⟩ := fresh.resolve_left close
    have right : Right c f := (right_iff c f).2 latest
    by_cases small : f.body.length < 2 ^ 31
    · have first := read_frame stream close right small
      rw [if_pos small]
      cases lawful : (drain (c.totalData ++ f.payload)).unlawful with
      | true =>
        have stopped := (afterFrame_stops (wires fs) lawful).1
        exact ⟨_, ⟨first, completeAll_of_stopped stopped⟩, by simp [packs_afterFrame, lawful]⟩
      | false =>
        have later := later ⟨close, small, lawful⟩
        rw [← high_afterFrame (wires fs), ← totalData_afterFrame c f (wires fs)] at later
        obtain ⟨d, rest, packs⟩ := ih (afterFrame_goes_on (wires fs) at'.lenMem lawful) later
        refine ⟨d, first.settles rest, ?_⟩
        rw [packs, packs_afterFrame, totalData_afterFrame]
        simp [lawful]
    · rw [if_neg small]
      exact ⟨_, read_oversize stream close right (by omega), by simp [NetConnect.gotLength]⟩

/-- A ping or pong frame. -/
def Frame.control (f : Frame) : Bool := f.opcode == 0x9 || f.opcode == 0xA

/-- The sequence without its ping and pong frames. -/
def dataFrames (fs : List Frame) : List Frame := fs.filter fun f => !f.control

/-- The reader delivers the same packs for `fs` and for `fs` without its control frames. -/
def Undisturbed (fs : List Frame) : Prop :=
  ∃ c d, Settles completeAll (start (wires fs)) c ∧ Settles completeAll (start (wires (dataFrames fs))) d ∧
    c.packs = d.packs

/-- Every length comes out right, with and without the control frames. -/
def FreshBoth (fs : List Frame) : Prop := Fresh 0 [] fs ∧ Fresh 0 [] (dataFrames fs)

theorem undisturbed_iff {fs : List Frame} (fresh : FreshBoth fs) :
    Undisturbed fs ↔ deliver [] fs = deliver [] (dataFrames fs) := by
  obtain ⟨c, rest, packs⟩ := settles_deliver fs (atFrame_start (wires fs)) fresh.1
  obtain ⟨d, rest', packs'⟩ := settles_deliver (dataFrames fs) (atFrame_start (wires (dataFrames fs))) fresh.2
  have delivered : c.packs = deliver [] fs := packs
  have delivered' : d.packs = deliver [] (dataFrames fs) := packs'
  constructor
  · rintro ⟨e, e', way, way', same⟩
    obtain rfl := way.unique rest
    obtain rfl := way'.unique rest'
    rw [← delivered, ← delivered', same]
  · intro same
    exact ⟨c, d, rest, rest', by rw [delivered, delivered', same]⟩

theorem Frame.live_of_control {f : Frame} (control : f.control = true) : f.opcode ≠ CLOSE_FRAME := by
  intro close
  simp [Frame.control, close, CLOSE_FRAME] at control

/-- A frame without payload leaves a waiting reader as it is. -/
theorem deliver_empty {f : Frame} {total : List UInt8} (fs : List Frame) (live : f.opcode ≠ CLOSE_FRAME)
    (empty : f.payload = []) (wait : getNetPackBuffer total = .wait) : deliver total (f :: fs) = deliver total fs := by
  have small : f.body.length < 2 ^ 31 := by
    rw [f.length_body, Frame.length, empty]
    split_ifs <;> decide
  rw [deliver, if_neg live, if_pos small, empty, List.append_nil, drain_of_wait wait]
  simp

theorem deliver_dataFrames (fs : List Frame) (empty : ∀ f ∈ fs, f.control = true → f.payload = []) :
    ∀ total, getNetPackBuffer total = .wait → deliver total fs = deliver total (dataFrames fs) := by
  induction fs with
  | nil => intro total _; rfl
  | cons f fs ih =>
    intro total wait
    have ih := ih fun g mem => empty g (List.mem_cons_of_mem f mem)
    cases control : f.control with
    | true =>
      have same : dataFrames (f :: fs) = dataFrames fs := by simp [dataFrames, control]
      rw [same, deliver_empty fs (Frame.live_of_control control) (empty f List.mem_cons_self control) wait]
      exact ih total wait
    | false =>
      have same : dataFrames (f :: fs) = f :: dataFrames fs := by simp [dataFrames, control]
      rw [same, deliver, deliver]
      split_ifs with close small
      · rfl
      · cases lawful : (drain (total ++ f.payload)).unlawful with
        | true => simp [lawful]
        | false => simp [lawful, ih _ (wait_of_drain _ lawful)]
      · rfl

/-- The head of a pack with a one-byte body. -/
def byteHead : PackHead := (Message.mk 7 1 [0]).head

/-- A data frame with that head alone. -/
def headFrame : Frame := .binary .short byteHead.bytes (by decide)

/-- A data frame with the body; the 64-bit length is right after any frame. -/
def bodyFrame (b : UInt8) : Frame := .binary .long [b] (Nat.lt_two_pow_self.trans (by decide : 2 ^ 1 < 2 ^ 31))

theorem deliver_headFrame (fs : List Frame) : deliver [] (headFrame :: fs) = deliver byteHead.bytes fs := by
  have wait : getNetPackBuffer ([] ++ headFrame.payload) = .wait := by decide
  rw [deliver, if_neg (by decide), if_pos (by decide), drain_of_wait wait]
  rfl

/-- The first byte after the head makes a pack, whichever frame it came in. -/
theorem drain_byteHead (b : UInt8) (bs : List UInt8) :
    (drain (byteHead.bytes ++ (b :: bs))).packs = ⟨byteHead, [b]⟩ :: (drain bs).packs := by
  have one : byteHead.datasize.toNat = 1 := rfl
  have pack : getNetPackBuffer (byteHead.bytes ++ (b :: bs)) = .pack ⟨byteHead, [b]⟩ bs := by
    rw [getNetPackBuffer_head byteHead rfl, one, if_neg (by simp)]
    rfl
  rw [drain_of_pack pack]

theorem deliver_bodyFrame (b : UInt8) : deliver byteHead.bytes [bodyFrame b] = [⟨byteHead, [b]⟩] := by
  have packs := drain_byteHead b []
  have live : (bodyFrame b).opcode ≠ CLOSE_FRAME := by simp [bodyFrame, Frame.binary, CLOSE_FRAME]
  have small : (bodyFrame b).body.length < 2 ^ 31 := by simp [bodyFrame, Frame.binary, Frame.body]
  rw [deliver, if_neg live, if_pos small]
  simp only [bodyFrame, Frame.binary, packs]
  split_ifs <;> rfl

theorem dataFrames_around {f : Frame} (control : f.control = true) (b : UInt8) :
    dataFrames [headFrame, f, bodyFrame b] = [headFrame, bodyFrame b] := by
  have head : headFrame.control = false := rfl
  have body : (bodyFrame b).control = false := rfl
  simp [dataFrames, control, head, body]

theorem freshBoth_around {f : Frame} (control : f.control = true) (b : UInt8) :
    FreshBoth [headFrame, f, bodyFrame b] := by
  unfold FreshBoth
  rw [dataFrames_around control]
  exact ⟨.inr ⟨.inr rfl, fun _ => .inr ⟨.inr rfl, fun _ => .inr ⟨.inl rfl, fun _ => trivial⟩⟩⟩,
    .inr ⟨.inr rfl, fun _ => .inr ⟨.inl rfl, fun _ => trivial⟩⟩⟩

/-- The first byte of a control payload becomes the body of the pack it falls into. -/
theorem disturbed_around {f : Frame} (control : f.control = true) {p b : UInt8} {ps : List UInt8}
    (payload : f.payload = p :: ps) (other : p ≠ b) : ¬ Undisturbed [headFrame, f, bodyFrame b] := by
  rw [undisturbed_iff (freshBoth_around control b), dataFrames_around control, deliver_headFrame, deliver_headFrame,
    deliver_bodyFrame, deliver, if_neg (Frame.live_of_control control)]
  split_ifs
  · dsimp only
    rw [payload, drain_byteHead, List.cons_append]
    intro same
    have first : NetPack.mk byteHead [p] = ⟨byteHead, [b]⟩ := (List.cons.inj same).1
    exact other (by simpa using first)
  · simp

/-- **Control frames.** Whichever ping and pong frames may stand in a sequence of frames: they
never change what is delivered exactly when none of them has a payload. One with a payload
falsifies the pack it falls into. -/
theorem control_frames (P : Frame → Prop) :
    (∀ fs, FreshBoth fs → (∀ f ∈ fs, f.control = true → P f) → Undisturbed fs) ↔
      ∀ f, f.control = true → P f → f.payload = [] := by
  constructor
  · intro undisturbed f control allowed
    by_contra payload
    obtain ⟨p, ps, payload⟩ := List.exists_cons_of_ne_nil payload
    have other : p ≠ p + 1 := by simp
    refine disturbed_around control payload other (undisturbed _ (freshBoth_around control _) ?_)
    intro g mem control'
    have data : headFrame.control = false ∧ (bodyFrame (p + 1)).control = false := ⟨rfl, rfl⟩
    simp only [List.mem_cons, List.not_mem_nil, or_false] at mem
    rcases mem with rfl | rfl | rfl
    · rw [data.1] at control'; cases control'
    · exact allowed
    · rw [data.2] at control'; cases control'
  · intro empty fs fresh allowed
    exact (undisturbed_iff fresh).2 (deliver_dataFrames fs (fun f mem control => empty f control (allowed f mem control)) [] rfl)

/-- A pong frame with one byte of payload. -/
def pongFrame : Frame := { Frame.binary .short [0xEE] (by decide) with opcode := 0xA, opcode_lt := by decide }

/-- The pack delivered has the pong's byte for a body. -/
theorem control_frames_pong : dataFrames [headFrame, pongFrame, bodyFrame 9] = [headFrame, bodyFrame 9] ∧
    deliver [] [headFrame, pongFrame, bodyFrame 9] = [⟨byteHead, [0xEE]⟩] ∧
    deliver [] [headFrame, bodyFrame 9] = [⟨byteHead, [9]⟩] ∧ ¬ Undisturbed [headFrame, pongFrame, bodyFrame 9] :=
  ⟨rfl, by decide +kernel, by decide +kernel, disturbed_around rfl rfl (by decide)⟩

end GameServer.Net.WebSocket

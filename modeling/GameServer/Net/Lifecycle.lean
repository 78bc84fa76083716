import GameServer.Net.Service

/-!
# The life of a connection as the observers see it

`update` dispatches connections, then packs, then breaks, so that `OnConnect` comes before the
packs of a connection and `OnDisConnect` after them. This fails for what the io threads push
between its critical sections: a connection queued after the first of them is reported in the
next `update`, its packs in this one; a pack queued after the second is fired in the next
`update`, the break in this one. And a connection is read from before it is queued.

In a run without such pushes (`Timely`) the order holds at every point (`lifecycle_ordered`).
-/

namespace GameServer.Net.Service

open GameServer.Lib

/-- Every pack comes after the `OnConnect` of its connection and before its `OnDisConnect`. -/
def Ordered (events : List Event) : Prop :=
  ∀ xs p ys, events = xs ++ .pack p :: ys →
    .connect p.connect ∈ xs ∧ ∀ message, .disConnect p.connect message ∉ xs

/-- A pack arrives after its connection was queued, and in the time between the first and the
second critical section of `update` only if the connection has left `newConnect`. A connection
does not break between the second and the third while one of its packs is waiting. -/
def Timely (s : NetService) : Act → Prop
  | .getNetPack conn _ => s.queued conn = true ∧ (s.phase.stage = .connects → conn ∉ s.newConnect)
  | .onDisConnect conn _ => s.phase.stage = .packs → ∀ p ∈ s.netPackVector, p.connect ≠ conn
  | _ => True

section Ordered

variable {events : List Event} {event : Event}

theorem Ordered.snoc (ordered : Ordered events)
    (last : ∀ p, event = .pack p → .connect p.connect ∈ events ∧ ∀ message, .disConnect p.connect message ∉ events) :
    Ordered (events ++ [event]) := by
  intro xs p ys split
  rcases List.eq_nil_or_concat ys with rfl | ⟨ys, e, rfl⟩
  · obtain ⟨rfl, same⟩ := List.append_inj' split rfl
    exact last p (List.cons.inj same).1
  · have split' : events ++ [event] = (xs ++ .pack p :: ys) ++ [e] := by simpa using split
    obtain ⟨rfl, -⟩ := List.append_inj' split' rfl
    exact ordered xs p ys rfl

end Ordered

/-- What holds throughout a timely run, of the mailboxes and of which connections are being read. -/
structure Good (b : Boxes) (accepted queued reading : Conn → Bool) : Prop where
  ordered : Ordered b.events
  connectStage : ∀ conn ∈ b.connects.batch, b.stage = .connects
  packStage : ∀ p ∈ b.packs.batch, b.stage = .packs
  disConnectStage : ∀ d ∈ b.disConnects.batch, b.stage = .disConnects
  reads : ∀ conn, reading conn = true → accepted conn = true
  queued : ∀ conn, queued conn = true → .connect conn ∈ b.events ∨ conn ∈ b.connects.batch ∨ conn ∈ b.connects.queue
  taken : ∀ p ∈ b.packs.batch, .connect p.connect ∈ b.events ∧ ∀ message, .disConnect p.connect message ∉ b.events
  connected : ∀ p ∈ b.packs.queue,
    .connect p.connect ∈ b.events ∨ p.connect ∈ b.connects.batch ∨ p.connect ∈ b.connects.queue ∧ b.stage ≠ .connects
  unbroken : ∀ p ∈ b.packs.queue, (∀ message, .disConnect p.connect message ∉ b.events) ∧
    (∀ d ∈ b.disConnects.batch, d.1 ≠ p.connect) ∧ (b.stage = .packs → ∀ d ∈ b.disConnects.queue, d.1 ≠ p.connect)
  /-- Who has broken is not read any more. -/
  ended : ∀ conn message, .disConnect conn message ∈ b.events ∨ (conn, message) ∈ b.disConnects.batch ∨
    (conn, message) ∈ b.disConnects.queue → accepted conn = true ∧ reading conn = false

section Parts

variable {b b' : Boxes} {accepted queued reading : Conn → Bool}

theorem Good.takeConnects (good : Good b accepted queued reading) (idle : b.stage = .idle) (used : b.connects.batch = []) :
    Good { b with stage := .connects, connects := b.connects.take } accepted queued reading := by
  have busy : ∀ {stage}, stage ≠ .idle → b.stage ≠ stage := fun other same => other (same.symm.trans idle)
  refine ⟨good.ordered, fun _ _ => rfl, ?_, ?_, good.reads, ?_, good.taken, ?_, ?_, good.ended⟩
  · exact fun p mem => absurd (good.packStage p mem) (busy nofun)
  · exact fun d mem => absurd (good.disConnectStage d mem) (busy nofun)
  · intro conn queued
    rcases good.queued conn queued with seen | mem | mem
    · exact .inl seen
    · rw [used] at mem
      cases mem
    · exact .inr (.inl mem)
  · intro p mem
    rcases good.connected p mem with seen | batch | ⟨queue, -⟩
    · exact .inl seen
    · rw [used] at batch
      cases batch
    · exact .inr (.inl queue)
  · intro p mem
    obtain ⟨unseen, batch, -⟩ := good.unbroken p mem
    exact ⟨unseen, batch, nofun⟩

theorem Good.connect (good : Good b accepted queued reading) {conn : Conn} {rest : List Conn}
    (next : b.connects.batch = conn :: rest) :
    Good { b with connects := b.connects.deliver conn rest, events := b.events ++ [.connect conn] } accepted queued reading := by
  have stage : b.stage = .connects := good.connectStage conn (by rw [next]; exact List.mem_cons_self)
  have seen : ∀ c, .connect c ∈ b.events ∨ c ∈ b.connects.batch → .connect c ∈ b.events ++ [.connect conn] ∨ c ∈ rest := by
    rintro c (mem | mem)
    · exact .inl (List.mem_append_left _ mem)
    · rw [next] at mem
      rcases List.mem_cons.1 mem with rfl | mem
      · exact .inl (List.mem_append_right _ List.mem_cons_self)
      · exact .inr mem
  have unseen : ∀ c message, .disConnect c message ∈ b.events ++ [.connect conn] → .disConnect c message ∈ b.events := by
    intro c message mem
    simpa using mem
  refine ⟨good.ordered.snoc nofun, fun _ _ => stage, good.packStage, good.disConnectStage, good.reads, ?_, ?_, ?_, ?_, ?_⟩
  · intro c queued
    rcases good.queued c queued with mem | mem | mem
    · exact (seen c (.inl mem)).imp_right .inl
    · exact (seen c (.inr mem)).imp_right .inl
    · exact .inr (.inr mem)
  · intro p mem
    exact absurd (stage.symm.trans (good.packStage p mem)) nofun
  · intro p mem
    rcases good.connected p mem with mem | mem | mem
    · exact (seen _ (.inl mem)).imp_right .inl
    · exact (seen _ (.inr mem)).imp_right .inl
    · exact .inr (.inr mem)
  · intro p mem
    obtain ⟨never, batch, queue⟩ := good.unbroken p mem
    exact ⟨fun message mem => never message (unseen _ _ mem), batch, queue⟩
  · rintro c message (mem | mem)
    · exact good.ended c message (.inl (unseen _ _ mem))
    · exact good.ended c message (.inr mem)

theorem Good.takePacks (good : Good b accepted queued reading) (stage : b.stage = .connects)
    (connected : b.connects.batch = []) :
    Good { b with stage := .packs, packs := b.packs.take } accepted queued reading := by
  refine ⟨good.ordered, ?_, fun _ _ => rfl, ?_, good.reads, good.queued, ?_, nofun, nofun, good.ended⟩
  · intro conn mem
    have mem : conn ∈ b.connects.batch := mem
    rw [connected] at mem
    cases mem
  · exact fun d mem => absurd (stage.symm.trans (good.disConnectStage d mem)) nofun
  · intro p mem
    refine ⟨?_, (good.unbroken p mem).1⟩
    rcases good.connected p mem with seen | batch | ⟨-, other⟩
    · exact seen
    · rw [connected] at batch
      cases batch
    · exact absurd stage other

theorem Good.pack (good : Good b accepted queued reading) {p : Pack} {rest : List Pack} (next : b.packs.batch = p :: rest) :
    Good { b with packs := b.packs.deliver p rest, events := b.events ++ [.pack p] } accepted queued reading := by
  have here : p ∈ b.packs.batch := by
    rw [next]
    exact List.mem_cons_self
  have later : ∀ q ∈ rest, q ∈ b.packs.batch := by
    intro q mem
    rw [next]
    exact List.mem_cons_of_mem p mem
  have old : ∀ {event}, event ∈ b.events → event ∈ b.events ++ [.pack p] := fun mem => List.mem_append_left _ mem
  have unseen : ∀ c message, .disConnect c message ∈ b.events ++ [.pack p] → .disConnect c message ∈ b.events := by
    intro c message mem
    simpa using mem
  refine ⟨good.ordered.snoc ?_, good.connectStage, fun _ _ => good.packStage p here, good.disConnectStage, good.reads, ?_, ?_,
    ?_, ?_, ?_⟩
  · rintro q same
    obtain rfl := Event.pack.inj same
    exact good.taken p here
  · exact fun c queued => (good.queued c queued).imp_left old
  · intro q mem
    obtain ⟨seen, never⟩ := good.taken q (later q mem)
    exact ⟨old seen, fun message mem => never message (unseen _ _ mem)⟩
  · exact fun q mem => (good.connected q mem).imp_left old
  · intro q mem
    obtain ⟨never, batch, queue⟩ := good.unbroken q mem
    exact ⟨fun message mem => never message (unseen _ _ mem), batch, queue⟩
  · rintro c message (mem | mem)
    · exact good.ended c message (.inl (unseen _ _ mem))
    · exact good.ended c message (.inr mem)

theorem Good.takeDisConnects (good : Good b accepted queued reading) (stage : b.stage = .packs)
    (fired : b.packs.batch = []) :
    Good { b with stage := .disConnects, disConnects := b.disConnects.take } accepted queued reading := by
  refine ⟨good.ordered, ?_, ?_, fun _ _ => rfl, good.reads, good.queued, good.taken, ?_, ?_, ?_⟩
  · exact fun conn mem => absurd (stage.symm.trans (good.connectStage conn mem)) nofun
  · intro p mem
    have mem : p ∈ b.packs.batch := mem
    rw [fired] at mem
    cases mem
  · exact fun p mem => (good.connected p mem).imp_right (.imp_right fun ⟨mem, _⟩ => ⟨mem, nofun⟩)
  · intro p mem
    obtain ⟨never, -, queue⟩ := good.unbroken p mem
    exact ⟨never, queue stage, nofun⟩
  · rintro c message (mem | mem | mem)
    · exact good.ended c message (.inl mem)
    · exact good.ended c message (.inr (.inr mem))
    · cases mem

theorem Good.disConnect (good : Good b accepted queued reading) {conn : Conn} {message : String} {rest : List (Conn × String)}
    (next : b.disConnects.batch = (conn, message) :: rest) :
    Good { b with
      disConnects := b.disConnects.deliver (conn, message) rest
      events := b.events ++ [.disConnect conn message] } accepted queued reading := by
  have here : (conn, message) ∈ b.disConnects.batch := by
    rw [next]
    exact List.mem_cons_self
  have later : ∀ d ∈ rest, d ∈ b.disConnects.batch := by
    intro d mem
    rw [next]
    exact List.mem_cons_of_mem _ mem
  have stage := good.disConnectStage _ here
  have old : ∀ {event}, event ∈ b.events → event ∈ b.events ++ [.disConnect conn message] := fun mem => List.mem_append_left _ mem
  refine ⟨good.ordered.snoc nofun, good.connectStage, good.packStage, fun _ _ => stage, good.reads, ?_, ?_, ?_, ?_, ?_⟩
  · exact fun c queued => (good.queued c queued).imp_left old
  · exact fun p mem => absurd (stage.symm.trans (good.packStage p mem)) nofun
  · exact fun p mem => (good.connected p mem).imp_left old
  · intro p mem
    obtain ⟨never, batch, queue⟩ := good.unbroken p mem
    refine ⟨?_, fun d mem => batch d (later d mem), queue⟩
    intro message' seen
    rcases List.mem_append.1 seen with seen | seen
    · exact never message' seen
    · exact batch _ here (Event.disConnect.inj (List.mem_singleton.1 seen)).1.symm
  · rintro c message' (mem | mem | mem)
    · rcases List.mem_append.1 mem with mem | mem
      · exact good.ended c message' (.inl mem)
      · obtain ⟨rfl, rfl⟩ := Event.disConnect.inj (List.mem_singleton.1 mem)
        exact good.ended _ _ (.inr (.inl here))
    · exact good.ended c message' (.inr (.inl (later _ mem)))
    · exact good.ended c message' (.inr (.inr mem))

theorem Good.finish (good : Good b accepted queued reading) (stage : b.stage = .disConnects)
    (used : b.disConnects.batch = []) : Good { b with stage := .idle } accepted queued reading := by
  refine ⟨good.ordered, ?_, ?_, ?_, good.reads, good.queued, good.taken, ?_, ?_, good.ended⟩
  · exact fun conn mem => absurd (stage.symm.trans (good.connectStage conn mem)) nofun
  · exact fun p mem => absurd (stage.symm.trans (good.packStage p mem)) nofun
  · intro d mem
    have mem : d ∈ b.disConnects.batch := mem
    rw [used] at mem
    cases mem
  · exact fun p mem => (good.connected p mem).imp_right (.imp_right fun ⟨mem, _⟩ => ⟨mem, nofun⟩)
  · intro p mem
    obtain ⟨never, batch, -⟩ := good.unbroken p mem
    exact ⟨never, batch, nofun⟩

theorem Good.part (good : Good b accepted queued reading) (part : b.Part b') : Good b' accepted queued reading := by
  cases part with
  | takeConnects idle used => exact good.takeConnects idle used
  | connect next => exact good.connect next
  | takePacks stage connected _ => exact good.takePacks stage connected
  | pack next => exact good.pack next
  | takeDisConnects stage fired _ => exact good.takeDisConnects stage fired
  | disConnect next => exact good.disConnect next
  | finish stage used => exact good.finish stage used

end Parts

/-- The invariant of a service. -/
def NetService.Good (s : NetService) : Prop := Service.Good s.boxes s.accepted s.queued s.reading

section Runs

variable {h : Handlers} {s t : NetService} {as : List Act} {a : Act} {conn : Conn}

theorem good_init : NetService.init.Good where
  ordered xs p ys split := by simp [NetService.init, NetService.boxes, NetService.events] at split
  connectStage _ mem := nomatch mem
  packStage _ mem := nomatch mem
  disConnectStage _ mem := nomatch mem
  reads _ reading := nomatch reading
  queued _ queued := nomatch queued
  taken _ mem := nomatch mem
  connected _ mem := nomatch mem
  unbroken _ mem := nomatch mem
  ended _ _ mem := by
    rcases mem with mem | mem | mem <;> cases mem

theorem NetService.Good.accept (good : s.Good) (new : s.accepted conn = false) :
    Service.Good s.boxes (Function.update s.accepted conn true) s.queued (Function.update s.reading conn true) := by
  refine { good with reads := ?_, ended := ?_ }
  · intro c reading
    by_cases same : c = conn
    · rw [same, Function.update_self]
    · rw [Function.update_of_ne same] at reading ⊢
      exact good.reads c reading
  · intro c message mem
    obtain ⟨accepted, reading⟩ := good.ended c message mem
    have other : c ≠ conn := by
      rintro rfl
      rw [new] at accepted
      cases accepted
    rw [Function.update_of_ne other, Function.update_of_ne other]
    exact ⟨accepted, reading⟩

theorem NetService.Good.onConnect (good : s.Good) :
    Service.Good { s.boxes with connects := s.boxes.connects.push conn } s.accepted (Function.update s.queued conn true)
      s.reading := by
  have later : ∀ c ∈ s.newConnect, c ∈ s.newConnect ++ [conn] := fun c mem => List.mem_append_left _ mem
  refine { good with queued := ?_, connected := ?_ }
  · intro c queued
    by_cases same : c = conn
    · exact .inr (.inr (List.mem_append_right _ (List.mem_singleton.2 same)))
    · rw [Function.update_of_ne same] at queued
      exact (good.queued c queued).imp_right (.imp_right (later c))
  · exact fun p mem => (good.connected p mem).imp_right (.imp_right fun ⟨mem, stage⟩ => ⟨later _ mem, stage⟩)

theorem NetService.Good.getNetPack (good : s.Good) {message : Message} (reading : s.reading conn = true)
    (timely : Timely s (.getNetPack conn message)) :
    Service.Good { s.boxes with packs := s.boxes.packs.push ⟨conn, message⟩ } s.accepted s.queued s.reading := by
  obtain ⟨queued, late⟩ := timely
  -- whoever is read has not broken
  have alive : ∀ c message, (.disConnect c message ∈ s.boxes.events ∨ (c, message) ∈ s.boxes.disConnects.batch ∨
      (c, message) ∈ s.boxes.disConnects.queue) → c ≠ conn := by
    rintro c message mem rfl
    have finished := (good.ended c message mem).2
    rw [reading] at finished
    cases finished
  refine { good with connected := ?_, unbroken := ?_ }
  · intro p mem
    rcases List.mem_append.1 mem with mem | mem
    · exact good.connected p mem
    · rw [List.mem_singleton.1 mem]
      rcases good.queued conn queued with seen | batch | queue
      · exact .inl seen
      · exact .inr (.inl batch)
      · exact .inr (.inr ⟨queue, fun stage => late stage queue⟩)
  · intro p mem
    rcases List.mem_append.1 mem with mem | mem
    · exact good.unbroken p mem
    · rw [List.mem_singleton.1 mem]
      refine ⟨?_, ?_, ?_⟩
      · exact fun message seen => alive conn message (.inl seen) rfl
      · exact fun d batch => alive d.1 d.2 (.inr (.inl batch))
      · exact fun _ d queue => alive d.1 d.2 (.inr (.inr queue))

theorem NetService.Good.onDisConnect (good : s.Good) {message : String} (reading : s.reading conn = true)
    (timely : Timely s (.onDisConnect conn message)) :
    Service.Good { s.boxes with disConnects := s.boxes.disConnects.push (conn, message) } s.accepted s.queued
      (Function.update s.reading conn false) := by
  refine { good with reads := ?_, unbroken := ?_, ended := ?_ }
  · intro c reading
    by_cases same : c = conn
    · rw [same, Function.update_self] at reading
      cases reading
    · rw [Function.update_of_ne same] at reading
      exact good.reads c reading
  · intro p mem
    obtain ⟨never, batch, queue⟩ := good.unbroken p mem
    refine ⟨never, batch, ?_⟩
    intro stage d there
    rcases List.mem_append.1 there with there | there
    · exact queue stage d there
    · rw [List.mem_singleton.1 there]
      exact (timely stage p mem).symm
  · intro c message' mem
    by_cases same : c = conn
    · rw [same, Function.update_self]
      exact ⟨good.reads conn reading, rfl⟩
    · rw [Function.update_of_ne same]
      refine good.ended c message' (mem.imp_right (.imp_right ?_))
      intro there
      rcases List.mem_append.1 there with there | there
      · exact there
      · exact absurd (Prod.mk.inj (List.mem_singleton.1 there)).1 same

theorem NetService.Good.step (good : s.Good) (timely : Timely s a) (next : step h s a = some t) : t.Good := by
  cases a with
  | accept conn =>
    simp only [Service.step] at next
    split_ifs at next with old
    obtain rfl := Option.some.inj next
    exact good.accept (by simpa using old)
  | onConnect conn =>
    simp only [Service.step] at next
    split_ifs at next
    obtain rfl := Option.some.inj next
    exact good.onConnect
  | getNetPack conn message =>
    simp only [Service.step] at next
    split_ifs at next with reading
    obtain rfl := Option.some.inj next
    exact good.getNetPack reading timely
  | onDisConnect conn message =>
    simp only [Service.step] at next
    split_ifs at next with reading
    obtain rfl := Option.some.inj next
    exact good.onDisConnect reading timely
  | update throws =>
    obtain rfl := Option.some.inj next
    have same : (update h throws s).accepted = s.accepted ∧ (update h throws s).queued = s.queued ∧
        (update h throws s).reading = s.reading := by
      unfold update
      split <;> (try split) <;> exact ⟨rfl, rfl, rfl⟩
    obtain ⟨accepted, queued, reading⟩ := same
    rw [NetService.Good, accepted, queued, reading]
    exact Good.part good (part_update h throws s)

/-- **The life of a connection**: in every interleaving in which the io threads push in time,
the observers see `OnConnect` before the packs of the connection are fired, and no pack of it
is fired after `OnDisConnect`. -/
theorem lifecycle_ordered (run : Runs (step h) Timely .init as s) {xs ys : List Event} {p : Pack}
    (fired : s.events = xs ++ .pack p :: ys) :
    .connect p.connect ∈ xs ∧ ∀ message, .disConnect p.connect message ∉ xs := by
  have good : s.Good := run.invariant NetService.Good good_init fun _ _ _ good timely next => good.step timely next
  exact good.ordered xs p ys fired

end Runs

instance (s : NetService) : (a : Act) → Decidable (Timely s a)
  | .accept _ => inferInstanceAs (Decidable True)
  | .onConnect _ => inferInstanceAs (Decidable True)
  | .getNetPack _ _ => inferInstanceAs (Decidable (_ ∧ _))
  | .onDisConnect _ _ => inferInstanceAs (Decidable (_ → _))
  | .update _ => inferInstanceAs (Decidable True)

/-- That many parts of `update`, without exceptions. -/
def updates (n : Nat) : List Act := List.replicate n (.update fun _ => false)

/-- A connection that sends one pack and breaks, all before `update`. -/
def visit : List Act := [.accept 0, .onConnect 0, .getNetPack 0 ⟨7, 0, [1]⟩, .onDisConnect 0 "end of file"] ++ updates 7

theorem lifecycle_ordered_visit : ∃ s, Runs (step twoObservers) Timely .init visit s ∧
    s.events = [.connect 0] ++ .pack ⟨0, ⟨7, 0, [1]⟩⟩ :: [.disConnect 0 "end of file"] ∧
    Event.connect 0 ∈ [Event.connect 0] ∧ ∀ message, Event.disConnect 0 message ∉ [Event.connect 0] := by
  obtain ⟨s, run, events⟩ : ∃ s, Runs (step twoObservers) Timely .init visit s ∧
      s.events = [.connect 0] ++ .pack ⟨0, ⟨7, 0, [1]⟩⟩ :: [.disConnect 0 "end of file"] := by
    apply Runs.exists_of_decide
    decide
  exact ⟨s, run, events, lifecycle_ordered run events⟩

/-- A connection and its pack come between the first two critical sections: the pack is fired
first. A pack and a break come between the last two: the pack is fired last. -/
theorem lifecycle_overtaken :
    (∃ s xs p ys, Runs (step twoObservers) (fun _ _ => True) .init
        (updates 1 ++ [.accept 0, .onConnect 0, .getNetPack 0 ⟨7, 0, [1]⟩] ++ updates 2) s ∧
      s.events = xs ++ .pack p :: ys ∧ .connect p.connect ∉ xs) ∧
    ∃ s xs p ys, Runs (step twoObservers) (fun _ _ => True) .init
        ([.accept 0, .onConnect 0] ++ updates 3 ++ [.getNetPack 0 ⟨7, 0, [1]⟩, .onDisConnect 0 "end of file"] ++ updates 6) s ∧
      s.events = xs ++ .pack p :: ys ∧ ∃ message, .disConnect p.connect message ∈ xs := by
  constructor
  · obtain ⟨s, run, events⟩ : ∃ s, Runs (step twoObservers) (fun _ _ => True) .init
        (updates 1 ++ [.accept 0, .onConnect 0, .getNetPack 0 ⟨7, 0, [1]⟩] ++ updates 2) s ∧
        s.events = [.pack ⟨0, ⟨7, 0, [1]⟩⟩] := by
      apply Runs.exists_of_decide
      decide
    exact ⟨s, [], ⟨0, ⟨7, 0, [1]⟩⟩, [], run, events, by simp⟩
  · obtain ⟨s, run, events⟩ : ∃ s, Runs (step twoObservers) (fun _ _ => True) .init
        ([.accept 0, .onConnect 0] ++ updates 3 ++ [.getNetPack 0 ⟨7, 0, [1]⟩, .onDisConnect 0 "end of file"] ++ updates 6) s ∧
        s.events = [.connect 0, .disConnect 0 "end of file", .pack ⟨0, ⟨7, 0, [1]⟩⟩] := by
      apply Runs.exists_of_decide
      decide
    exact ⟨s, [.connect 0, .disConnect 0 "end of file"], ⟨0, ⟨7, 0, [1]⟩⟩, [], run, events, "end of file", by simp⟩

end GameServer.Net.Service

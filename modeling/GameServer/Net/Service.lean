import GameServer.Lib.Mailbox
import GameServer.Lib.Run
import GameServer.Net.Pack

/-!
# xlib's `NetService`

The io threads push new connections, packs and breaks into three vectors, each under its own
mutex. `NetService::update` copies and clears one vector after the other and dispatches what it
took before it goes on to the next. Every push is a step, and so is each of the parts of
`update`: a critical section, or the dispatch of one event, by which handlers may throw.

A connection is read by one chain of asynchronous reads that ends when the connection breaks,
and `OnConnect` starts the chain before it queues the connection. `fired` is history: the
dispatched events, with the handlers that were called. Each vector is a mailbox
(`connectBox`, `packBox`, `disConnectBox`), so no event is lost, repeated or overtaken by a
later one in its vector, whatever the handlers throw (`update_exact`).
-/

namespace GameServer.Net.Service

open GameServer.Lib

abbrev Conn := Nat

/-- An observer or a message handler. -/
abbrev Handler := Nat

/-- A pack, with `m_Connect`. -/
structure Pack where
  connect : Conn
  message : Message
  deriving DecidableEq, Repr

inductive Event where
  | connect (conn : Conn)
  | pack (p : Pack)
  | disConnect (conn : Conn) (message : String)
  deriving DecidableEq, Repr

structure Fired where
  event : Event
  called : List Handler
  /-- The last handler that was called threw. -/
  threw : Bool
  deriving DecidableEq, Repr

/-- Where `update` is; `tmp` and `i` are those of the loop it is in. -/
inductive Phase where
  | idle
  | connects (tmp : List Conn) (i : Nat)
  | packs (i : Nat)
  | disConnects (tmp : List (Conn × String)) (i : Nat)
  deriving DecidableEq, Repr

/-- `MessageHandle` and the observers; message ids are compared as `int`. -/
structure Handlers where
  netObserverSet : List Handler
  msgHandleMap : Int → List Handler
  /-- The handlers of the messages from the first to the second id. -/
  msgRangeCollect : List (Int × Int × Handler)

structure NetService where
  newConnect : List Conn
  netPackVector : List Pack
  netPackVectorTemp : List Pack
  newDisConnect : List (Conn × String)
  phase : Phase
  /-- The connections that `OnConnect` has been called for. -/
  accepted : Conn → Bool
  /-- The accepted connections that have been queued. -/
  queued : Conn → Bool
  /-- The connections that are being read. -/
  reading : Conn → Bool
  fired : List Fired

def NetService.init : NetService := ⟨[], [], [], [], .idle, fun _ => false, fun _ => false, fun _ => false, []⟩

/-- The handlers an event is for: those `FireMessage` finds, or the observers. -/
def Handlers.of (h : Handlers) : Event → List Handler
  | .connect _ => h.netObserverSet
  | .pack p =>
    let id := p.message.messageid.toInt
    h.msgHandleMap id ++ (h.msgRangeCollect.filter fun r => r.1 ≤ id && id ≤ r.2.1).map fun r => r.2.2
  | .disConnect _ _ => h.netObserverSet

/-- Call handlers in turn, until one throws. -/
def callHandlers (throws : Handler → Bool) : List Handler → List Handler × Bool
  | [] => ([], false)
  | h :: hs =>
    if throws h then ([h], true)
    else ((h :: (callHandlers throws hs).1), (callHandlers throws hs).2)

/-- One turn of a dispatch loop; the exception is caught. -/
def dispatch (h : Handlers) (throws : Handler → Bool) (s : NetService) (event : Event) : NetService :=
  let (called, threw) := callHandlers throws (h.of event)
  { s with fired := s.fired ++ [⟨event, called, threw⟩] }

inductive Act where
  /-- `OnConnect`, up to the call of `Handshake`. -/
  | accept (conn : Conn)
  /-- The rest of `OnConnect`. -/
  | onConnect (conn : Conn)
  | getNetPack (conn : Conn) (message : Message)
  | onDisConnect (conn : Conn) (message : String)
  /-- The next part of `update`. -/
  | update (throws : Handler → Bool)

def update (h : Handlers) (throws : Handler → Bool) (s : NetService) : NetService :=
  match s.phase with
  | .idle => { s with phase := .connects s.newConnect 0, newConnect := [] }
  | .connects tmp i => match tmp[i]? with
    | some conn => { dispatch h throws s (.connect conn) with phase := .connects tmp (i + 1) }
    | none => { s with netPackVectorTemp := s.netPackVector, netPackVector := [], phase := .packs 0 }
  | .packs i => match s.netPackVectorTemp[i]? with
    | some p => { dispatch h throws s (.pack p) with phase := .packs (i + 1) }
    | none =>
      { s with netPackVectorTemp := [], phase := .disConnects s.newDisConnect 0, newDisConnect := [] }
  | .disConnects tmp i => match tmp[i]? with
    | some (conn, message) =>
      { dispatch h throws s (.disConnect conn message) with phase := .disConnects tmp (i + 1) }
    | none => { s with phase := .idle }

def step (h : Handlers) (s : NetService) : Act → Option NetService
  | .accept conn =>
    if s.accepted conn then none
    else some { s with
      accepted := Function.update s.accepted conn true
      reading := Function.update s.reading conn true }
  | .onConnect conn =>
    if s.accepted conn ∧ ¬ s.queued conn then
      some { s with queued := Function.update s.queued conn true, newConnect := s.newConnect ++ [conn] }
    else none
  | .getNetPack conn message =>
    if s.reading conn then some { s with netPackVector := s.netPackVector ++ [⟨conn, message⟩] } else none
  | .onDisConnect conn message =>
    if s.reading conn then
      some { s with
        reading := Function.update s.reading conn false
        newDisConnect := s.newDisConnect ++ [(conn, message)] }
    else none
  | .update throws => some (update h throws s)

/-- The connection of a connect event. -/
def Event.connect? : Event → Option Conn
  | .connect conn => some conn
  | _ => none

def Event.pack? : Event → Option Pack
  | .pack p => some p
  | _ => none

def Event.disConnect? : Event → Option (Conn × String)
  | .disConnect conn message => some (conn, message)
  | _ => none

inductive Stage where
  | idle
  | connects
  | packs
  | disConnects
  deriving DecidableEq, Repr

/-- `update` on three mailboxes: the abstract service. -/
structure Boxes where
  stage : Stage
  connects : Mailbox Conn
  packs : Mailbox Pack
  disConnects : Mailbox (Conn × String)
  events : List Event

/-- A part of `update`. -/
inductive Boxes.Part : Boxes → Boxes → Prop where
  | takeConnects {b : Boxes} : b.stage = .idle → b.connects.batch = [] →
      Part b { b with stage := .connects, connects := b.connects.take }
  | connect {b : Boxes} {conn : Conn} {rest : List Conn} : b.connects.batch = conn :: rest →
      Part b { b with connects := b.connects.deliver conn rest, events := b.events ++ [.connect conn] }
  | takePacks {b : Boxes} : b.stage = .connects → b.connects.batch = [] → b.packs.batch = [] →
      Part b { b with stage := .packs, packs := b.packs.take }
  | pack {b : Boxes} {p : Pack} {rest : List Pack} : b.packs.batch = p :: rest →
      Part b { b with packs := b.packs.deliver p rest, events := b.events ++ [.pack p] }
  | takeDisConnects {b : Boxes} : b.stage = .packs → b.packs.batch = [] → b.disConnects.batch = [] →
      Part b { b with stage := .disConnects, disConnects := b.disConnects.take }
  | disConnect {b : Boxes} {conn : Conn} {message : String} {rest : List (Conn × String)} :
      b.disConnects.batch = (conn, message) :: rest →
      Part b { b with
        disConnects := b.disConnects.deliver (conn, message) rest
        events := b.events ++ [.disConnect conn message] }
  | finish {b : Boxes} : b.stage = .disConnects → b.disConnects.batch = [] → Part b { b with stage := .idle }

/-- The events that were dispatched. -/
def NetService.events (s : NetService) : List Event := s.fired.map Fired.event

def Phase.stage : Phase → Stage
  | .idle => .idle
  | .connects _ _ => .connects
  | .packs _ => .packs
  | .disConnects _ _ => .disConnects

/-- The connections that were taken from `newConnect` and not dispatched yet. -/
def Phase.connectBatch : Phase → List Conn
  | .connects tmp i => tmp.drop i
  | _ => []

def Phase.packBatch (netPackVectorTemp : List Pack) : Phase → List Pack
  | .packs i => netPackVectorTemp.drop i
  | _ => []

def Phase.disConnectBatch : Phase → List (Conn × String)
  | .disConnects tmp i => tmp.drop i
  | _ => []

/-- The mailboxes of a service. -/
def NetService.boxes (s : NetService) : Boxes where
  stage := s.phase.stage
  connects := ⟨s.events.filterMap Event.connect?, s.phase.connectBatch, s.newConnect⟩
  packs := ⟨s.events.filterMap Event.pack?, s.phase.packBatch s.netPackVectorTemp, s.netPackVector⟩
  disConnects := ⟨s.events.filterMap Event.disConnect?, s.phase.disConnectBatch, s.newDisConnect⟩
  events := s.events

section Update

variable {h : Handlers} {throws : Handler → Bool} {s t : NetService} {as : List Act} {a : Act}

theorem drop_eq_cons {α : Type} {l : List α} {i : Nat} {x : α} (here : l[i]? = some x) : l.drop i = x :: l.drop (i + 1) := by
  obtain ⟨bound, rfl⟩ := List.getElem?_eq_some_iff.1 here
  exact List.drop_eq_getElem_cons bound

theorem drop_eq_nil {α : Type} {l : List α} {i : Nat} (end' : l[i]? = none) : l.drop i = [] :=
  List.drop_eq_nil_of_le (List.getElem?_eq_none_iff.1 end')

/-- **`update`** is a sequence of parts on the mailboxes. -/
theorem part_update (h : Handlers) (throws : Handler → Bool) (s : NetService) : s.boxes.Part (update h throws s).boxes := by
  obtain ⟨newConnect, netPackVector, netPackVectorTemp, newDisConnect, phase, accepted, queued, reading, fired⟩ := s
  let at' (phase : Phase) : Boxes := NetService.boxes
    ⟨newConnect, netPackVector, netPackVectorTemp, newDisConnect, phase, accepted, queued, reading, fired⟩
  cases phase with
  | idle => exact .takeConnects rfl rfl
  | connects tmp i =>
    simp only [update]
    cases here : tmp[i]? with
    | none =>
      have part := Boxes.Part.takePacks (b := at' (.connects tmp i)) rfl (drop_eq_nil here) rfl
      simpa [at', NetService.boxes, NetService.events, Mailbox.take, Phase.connectBatch, Phase.packBatch,
        Phase.disConnectBatch, Phase.stage, drop_eq_nil here] using part
    | some conn =>
      have part := Boxes.Part.connect (b := at' (.connects tmp i)) (drop_eq_cons here)
      simpa [at', NetService.boxes, NetService.events, dispatch, Mailbox.deliver, Phase.connectBatch, Phase.packBatch,
        Phase.disConnectBatch, Phase.stage, Event.connect?, Event.pack?, Event.disConnect?, List.filterMap_cons] using part
  | packs i =>
    simp only [update]
    cases here : netPackVectorTemp[i]? with
    | none =>
      have part := Boxes.Part.takeDisConnects (b := at' (.packs i)) rfl (drop_eq_nil here) rfl
      simpa [at', NetService.boxes, NetService.events, Mailbox.take, Phase.connectBatch, Phase.packBatch,
        Phase.disConnectBatch, Phase.stage, drop_eq_nil here] using part
    | some p =>
      have part := Boxes.Part.pack (b := at' (.packs i)) (drop_eq_cons here)
      simpa [at', NetService.boxes, NetService.events, dispatch, Mailbox.deliver, Phase.connectBatch, Phase.packBatch,
        Phase.disConnectBatch, Phase.stage, Event.connect?, Event.pack?, Event.disConnect?, List.filterMap_cons] using part
  | disConnects tmp i =>
    simp only [update]
    cases here : tmp[i]? with
    | none =>
      have part := Boxes.Part.finish (b := at' (.disConnects tmp i)) rfl (drop_eq_nil here)
      simpa [at', NetService.boxes, NetService.events, Phase.connectBatch, Phase.packBatch, Phase.disConnectBatch,
        Phase.stage, drop_eq_nil here] using part
    | some d =>
      obtain ⟨conn, message⟩ := d
      have part := Boxes.Part.disConnect (b := at' (.disConnects tmp i)) (drop_eq_cons here)
      simpa [at', NetService.boxes, NetService.events, dispatch, Mailbox.deliver, Phase.connectBatch, Phase.packBatch,
        Phase.disConnectBatch, Phase.stage, Event.connect?, Event.pack?, Event.disConnect?, List.filterMap_cons] using part

/-- A part of `update` moves events on and neither adds nor drops any. -/
theorem Boxes.Part.all {b b' : Boxes} (part : b.Part b') :
    b'.connects.all = b.connects.all ∧ b'.packs.all = b.packs.all ∧ b'.disConnects.all = b.disConnects.all := by
  cases part with
  | takeConnects _ used => exact ⟨Mailbox.all_take _ used, rfl, rfl⟩
  | connect next => exact ⟨Mailbox.all_deliver _ next, rfl, rfl⟩
  | takePacks _ _ used => exact ⟨rfl, Mailbox.all_take _ used, rfl⟩
  | pack next => exact ⟨rfl, Mailbox.all_deliver _ next, rfl⟩
  | takeDisConnects _ _ used => exact ⟨rfl, rfl, Mailbox.all_take _ used⟩
  | disConnect next => exact ⟨rfl, rfl, Mailbox.all_deliver _ next⟩
  | finish => exact ⟨rfl, rfl, rfl⟩

/-- What an action pushes. -/
def Act.connects : Act → List Conn
  | .onConnect conn => [conn]
  | _ => []

def Act.packs : Act → List Pack
  | .getNetPack conn message => [⟨conn, message⟩]
  | _ => []

def Act.disConnects : Act → List (Conn × String)
  | .onDisConnect conn message => [(conn, message)]
  | _ => []

/-- The io threads push one item at most, and dispatch nothing. -/
theorem step_io (next : step h s a = some t) : (∃ throws, a = .update throws ∧ t = update h throws s) ∨
    t.fired = s.fired ∧ t.boxes.connects.all = s.boxes.connects.all ++ a.connects ∧
      t.boxes.packs.all = s.boxes.packs.all ++ a.packs ∧ t.boxes.disConnects.all = s.boxes.disConnects.all ++ a.disConnects := by
  cases a with
  | accept conn =>
    simp only [step] at next
    split_ifs at next
    obtain rfl := Option.some.inj next
    right
    simp [Act.connects, Act.packs, Act.disConnects, NetService.boxes, NetService.events]
  | onConnect conn =>
    simp only [step] at next
    split_ifs at next
    obtain rfl := Option.some.inj next
    right
    simp [Act.connects, Act.packs, Act.disConnects, NetService.boxes, NetService.events, Mailbox.all]
  | getNetPack conn message =>
    simp only [step] at next
    split_ifs at next
    obtain rfl := Option.some.inj next
    right
    simp [Act.connects, Act.packs, Act.disConnects, NetService.boxes, NetService.events, Mailbox.all]
  | onDisConnect conn message =>
    simp only [step] at next
    split_ifs at next
    obtain rfl := Option.some.inj next
    right
    simp [Act.connects, Act.packs, Act.disConnects, NetService.boxes, NetService.events, Mailbox.all]
  | update throws => exact .inl ⟨throws, rfl, (Option.some.inj next).symm⟩

theorem all_step (next : step h s a = some t) :
    t.boxes.connects.all = s.boxes.connects.all ++ a.connects ∧ t.boxes.packs.all = s.boxes.packs.all ++ a.packs ∧
      t.boxes.disConnects.all = s.boxes.disConnects.all ++ a.disConnects := by
  rcases step_io next with ⟨throws, rfl, rfl⟩ | ⟨-, pushed⟩
  · simpa [Act.connects, Act.packs, Act.disConnects] using (part_update h throws s).all
  · exact pushed

/-- What was pushed is what was dispatched, what was taken, and what is queued. -/
theorem all_runs (run : Runs (step h) (fun _ _ => True) .init as s) :
    s.boxes.connects.all = as.flatMap Act.connects ∧ s.boxes.packs.all = as.flatMap Act.packs ∧
      s.boxes.disConnects.all = as.flatMap Act.disConnects := by
  induction run with
  | refl => exact ⟨rfl, rfl, rfl⟩
  | @snoc as a s t _ _ next ih =>
    obtain ⟨connects, packs, disConnects⟩ := all_step next
    have last : ∀ {α : Type} (f : Act → List α), (as ++ [a]).flatMap f = as.flatMap f ++ f a := by
      intro α f
      simp
    rw [connects, packs, disConnects, ih.1, ih.2.1, ih.2.2, last, last, last]
    exact ⟨rfl, rfl, rfl⟩

/-- Handlers that were called in turn: all of them, or up to the first that threw. -/
inductive Tried (throws : Handler → Bool) (hs : List Handler) : List Handler → Bool → Prop where
  | all (quiet : ∀ x ∈ hs, throws x = false) : Tried throws hs hs false
  | upTo {before : List Handler} {last : Handler} {after : List Handler} (whole : hs = before ++ last :: after)
      (quiet : ∀ x ∈ before, throws x = false) (threw : throws last = true) : Tried throws hs (before ++ [last]) true

theorem tried_callHandlers (throws : Handler → Bool) (hs : List Handler) :
    Tried throws hs (callHandlers throws hs).1 (callHandlers throws hs).2 := by
  induction hs with
  | nil => exact .all fun x mem => nomatch mem
  | cons first hs ih =>
    simp only [callHandlers]
    split_ifs with threw
    · exact @Tried.upTo throws _ [] first hs rfl (fun x mem => nomatch mem) threw
    · have calm : throws first = false := Bool.eq_false_iff.2 threw
      generalize callHandlers throws hs = rest at ih
      obtain ⟨called, threw'⟩ := rest
      cases ih with
      | all quiet => exact .all (List.forall_mem_cons.2 ⟨calm, quiet⟩)
      | @upTo before last after whole quiet threw =>
        subst whole
        exact @Tried.upTo throws _ (first :: before) last after rfl (List.forall_mem_cons.2 ⟨calm, quiet⟩) threw

theorem Tried.called {hs called : List Handler} {threw : Bool} (tried : Tried throws hs called threw) :
    called <+: hs ∧ (threw = false → called = hs) := by
  cases tried with
  | all => exact ⟨List.prefix_rfl, fun _ => rfl⟩
  | @upTo before last after whole =>
    refine ⟨⟨after, ?_⟩, nofun⟩
    rw [whole, List.append_assoc, List.singleton_append]

/-- A turn of `update` dispatches one event at most. -/
theorem fired_update (h : Handlers) (throws : Handler → Bool) (s : NetService) : (update h throws s).fired = s.fired ∨
    ∃ f, (update h throws s).fired = s.fired ++ [f] ∧ Tried throws (h.of f.event) f.called f.threw := by
  have dispatched : ∀ event, ∃ f, (dispatch h throws s event).fired = s.fired ++ [f] ∧ Tried throws (h.of f.event) f.called f.threw :=
    fun event => ⟨_, rfl, tried_callHandlers throws (h.of event)⟩
  unfold update
  split
  · exact .inl rfl
  · split
    · exact .inr (dispatched _)
    · exact .inl rfl
  · split
    · exact .inr (dispatched _)
    · exact .inl rfl
  · split
    · exact .inr (dispatched _)
    · exact .inl rfl

/-- The turn of `update` in which an event was dispatched. -/
theorem turn_of_fired (run : Runs (step h) (fun _ _ => True) .init as s) {before after : List Fired} {f : Fired}
    (fired : s.fired = before ++ f :: after) : ∃ bs throws cs u, as = bs ++ .update throws :: cs ∧
      Runs (step h) (fun _ _ => True) .init bs u ∧ u.fired = before ∧ Tried throws (h.of f.event) f.called f.threw := by
  induction run generalizing after with
  | refl =>
    have empty : NetService.init.fired = [] := rfl
    rw [empty] at fired
    simp at fired
  | @snoc as a s t run _ next ih =>
    -- an event that had been dispatched before this step
    have earlier : ∀ after, s.fired = before ++ f :: after → ∃ bs throws cs u, as ++ [a] = bs ++ .update throws :: cs ∧
        Runs (step h) (fun _ _ => True) .init bs u ∧ u.fired = before ∧ Tried throws (h.of f.event) f.called f.threw := by
      intro after fired
      obtain ⟨bs, throws, cs, u, rfl, turn⟩ := ih fired
      exact ⟨bs, throws, cs ++ [a], u, by simp, turn⟩
    rcases step_io next with ⟨throws, rfl, rfl⟩ | ⟨same, -⟩
    · rcases fired_update h throws s with same | ⟨f', last, tried⟩
      · exact earlier after (same ▸ fired)
      · rw [last] at fired
        rcases List.eq_nil_or_concat after with rfl | ⟨after, f'', rfl⟩
        · obtain ⟨rfl, same⟩ := List.append_inj' fired rfl
          obtain rfl : f' = f := by simpa using same
          exact ⟨as, throws, [], s, rfl, run, rfl, tried⟩
        · rw [List.concat_eq_append, ← List.cons_append, ← List.append_assoc] at fired
          exact earlier after (List.append_inj' fired rfl).1
    · exact earlier after (same ▸ fired)

/-- **`update` neither loses nor repeats events**, in any interleaving with the io threads: in
each of the three vectors, what was dispatched, followed by what `update` has taken and what is
still queued, is what was pushed. A handler that throws keeps the event from the handlers after
it, in the turn that dispatches the event, and has no effect on other events. -/
theorem update_exact (run : Runs (step h) (fun _ _ => True) .init as s) :
    s.events.filterMap Event.connect? ++ (s.phase.connectBatch ++ s.newConnect) = as.flatMap Act.connects ∧
    s.events.filterMap Event.pack? ++ (s.phase.packBatch s.netPackVectorTemp ++ s.netPackVector) = as.flatMap Act.packs ∧
    s.events.filterMap Event.disConnect? ++ (s.phase.disConnectBatch ++ s.newDisConnect) = as.flatMap Act.disConnects ∧
    (∀ f ∈ s.fired, f.called <+: h.of f.event ∧ (f.threw = false → f.called = h.of f.event)) ∧
    ∀ before f after, s.fired = before ++ f :: after → ∃ bs throws cs u, as = bs ++ .update throws :: cs ∧
      Runs (step h) (fun _ _ => True) .init bs u ∧ u.fired = before ∧ Tried throws (h.of f.event) f.called f.threw := by
  obtain ⟨connects, packs, disConnects⟩ := all_runs run
  refine ⟨connects, packs, disConnects, fun f mem => ?_, fun before f after => turn_of_fired run⟩
  obtain ⟨before, after, fired⟩ := List.append_of_mem mem
  obtain ⟨bs, throws, cs, u, -, -, -, tried⟩ := turn_of_fired run fired
  exact tried.called

/-- Two connections; a pack arrives in the middle of an `update`, and an observer throws. -/
def overlap : List Act :=
  [.accept 0, .onConnect 0, .accept 1, .update fun _ => false, .onConnect 1, .update fun _ => true,
    .getNetPack 0 ⟨7, 0, [1]⟩, .update fun _ => false, .getNetPack 1 ⟨8, 0, [2]⟩, .onDisConnect 0 "end of file",
    .update fun _ => true, .update fun _ => false]

def twoObservers : Handlers := ⟨[10, 11], fun _ => [20], []⟩

theorem update_exact_overlap : ∃ s, Runs (step twoObservers) (fun _ _ => True) .init overlap s ∧
    s.events.filterMap Event.pack? ++ (s.phase.packBatch s.netPackVectorTemp ++ s.netPackVector) =
      [⟨0, ⟨7, 0, [1]⟩⟩, ⟨1, ⟨8, 0, [2]⟩⟩] ∧
    s.fired = [⟨.connect 0, [10], true⟩, ⟨.pack ⟨0, ⟨7, 0, [1]⟩⟩, [20], true⟩] := by
  obtain ⟨s, run, fired⟩ : ∃ s, Runs (step twoObservers) (fun _ _ => True) .init overlap s ∧
      s.fired = [⟨.connect 0, [10], true⟩, ⟨.pack ⟨0, ⟨7, 0, [1]⟩⟩, [20], true⟩] := by
    apply Runs.exists_of_decide
    decide
  exact ⟨s, run, (update_exact run).2.1, fired⟩

end Update

end GameServer.Net.Service

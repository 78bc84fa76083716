import GameServer.Fights.Roster

/-!
# The turns of a fight

`Protocol` is the turn protocol: a round goes through the fighters from the slowest to the fastest, the fighter whose turn
it is ends it with `RandOver`, a `RandOver` of any other fighter does nothing, and the last one starts the next round.
`RandOver` keeps to it but for the last fighter of a round: it returns when there is one shot left, and never comes to
`Update`.
-/

namespace GameServer.Fights

open GameServer.Lib

variable {w : Fighters} {std : StdSort} {debug : Bool} {p f : FightBase} {rest roster order : List FightBase} {log : List Call}

/-- All fighters, the slowest first. -/
structure Order (w : Fighters) (roster order : List FightBase) : Prop where
  all : order.Perm roster
  increasing : order.Pairwise fun a b => w.GetYisu a ≤ w.GetYisu b

/-- `Protocol w roster rest log`: the calls of `log`, beginning with an `Update`, follow the protocol, and the fighters of
`rest` have not ended their turns, the first one having begun it. -/
inductive Protocol (w : Fighters) (roster : List FightBase) : List FightBase → List Call → Prop where
  | first {f : FightBase} {rest : List FightBase} (order : Order w roster (f :: rest)) :
      Protocol w roster (f :: rest) [.Update, .Fight f]
  | other {f p : FightBase} {rest : List FightBase} {log : List Call} :
      Protocol w roster (f :: rest) log → p ≠ f → Protocol w roster (f :: rest) (log ++ [.RandOver p])
  | next {f f' : FightBase} {rest : List FightBase} {log : List Call} :
      Protocol w roster (f :: f' :: rest) log → Protocol w roster (f' :: rest) (log ++ [.RandOver f, .Fight f'])
  | last {f f' : FightBase} {rest : List FightBase} {log : List Call} :
      Protocol w roster [f] log → Order w roster (f' :: rest) →
        Protocol w roster (f' :: rest) (log ++ [.RandOver f, .Update, .Fight f'])

/-- The fighters whose `Fight` has been called since the last `Update`. -/
def thisRound (log : List Call) : List FightBase :=
  log.foldl (fun fights call =>
    match call with
    | .RandOver _ => fights
    | .Update => []
    | .Fight p => fights ++ [p]) []

/-- In a round each fighter gets one call, in the order of the speeds. -/
theorem Protocol.round (protocol : Protocol w roster rest log) :
    ∃ f rest' before, rest = f :: rest' ∧ thisRound log = before ++ [f] ∧ Order w roster (before ++ f :: rest') := by
  induction protocol with
  | @first f rest order => exact ⟨f, rest, [], rfl, rfl, order⟩
  | other _ _ ih =>
    obtain ⟨f, rest, before, same, fights, order⟩ := ih
    refine ⟨f, rest, before, same, ?_, order⟩
    rw [thisRound, List.foldl_concat]
    exact fights
  | @next f f' rest log _ ih =>
    obtain ⟨f, _, before, same, fights, order⟩ := ih
    cases same
    refine ⟨f', rest, before ++ [f], rfl, ?_, ?_⟩
    · rw [← fights, thisRound, List.foldl_append]
      rfl
    · rw [List.append_assoc, List.singleton_append]
      exact order
  | @last f f' rest log _ order _ =>
    refine ⟨f', rest, [], rfl, ?_, order⟩
    rw [thisRound, List.foldl_append]
    rfl

/-- A `RandOver` that calls nothing is not one of the fighter whose turn it is. -/
theorem Protocol.idle (protocol : Protocol w roster (f :: rest) (log ++ [.RandOver p])) : p ≠ f := by
  generalize calls : log ++ [.RandOver p] = log', order : f :: rest = order' at protocol
  cases protocol with
  | first => simpa using congrArg List.getLast? calls
  | other _ ne =>
    cases order
    obtain ⟨-, same⟩ := List.append_inj' calls rfl
    cases same
    exact ne
  | next => simpa using congrArg List.getLast? calls
  | last => simpa using congrArg List.getLast? calls

/-- A fight with the calls that have been made, from an `Update` on. -/
structure Fighting where
  info : FightInfo
  log : List Call

/-- `RandOver(p)`, called by a fighter from its `Fight` or from elsewhere. -/
def randOver (w : Fighters) (std : StdSort) (debug : Bool) (s : Fighting) (p : FightBase) : Option Fighting := do
  let (info, calls) ← s.info.RandOver w std debug p
  some ⟨info, s.log ++ .RandOver p :: calls⟩

/-- The fighters of the round that have a shot left, the one at the end of `ShotSequence` first. -/
def waiting (s : FightInfo) : List FightBase := (s.ShotSequence.map PlayerFightInfo.player).reverse

/-- The calls follow the protocol, and the fighter at the end of `ShotSequence` is the one whose turn it is. -/
def Follows (w : Fighters) (roster : List FightBase) (s : Fighting) : Prop := Protocol w roster (waiting s.info) s.log

/-- The last fighter of the round does not call `RandOver`. -/
def Open (s : Fighting) (p : FightBase) : Prop := s.info.ShotSequence.map PlayerFightInfo.player ≠ [p]

instance (s : Fighting) (p : FightBase) : Decidable (Open s p) := inferInstanceAs (Decidable (_ ≠ _))

section Runs

variable {s t : Fighting} {info after : FightInfo} {a b : PlayerFightInfo} {init : List PlayerFightInfo} {calls : List Call}
  {ps : List FightBase}

theorem waiting_concat (sequence : info.ShotSequence = init ++ [a]) :
    waiting info = a.player :: (init.map PlayerFightInfo.player).reverse := by
  rw [waiting, sequence, List.map_append, List.reverse_append]
  rfl

/-- While it is the turn of some fighter there is a shot left. -/
theorem Follows.waits (follows : Follows w roster s) : ∃ init a, s.info.ShotSequence = init ++ [a] := by
  obtain ⟨f, rest, before, order, -, -⟩ := follows.round
  have some : s.info.ShotSequence ≠ [] := by
    intro none
    rw [waiting, none] at order
    cases order
  obtain ⟨init, a, sequence⟩ := (List.eq_nil_or_concat' _).resolve_left some
  exact ⟨init, a, sequence⟩

theorem randOver_keeps (follows : Follows w roster s) (isOpen : Open s p) (next : randOver w std debug s p = some t) :
    Follows w roster t := by
  obtain ⟨⟨info, calls⟩, turned, result⟩ := Option.bind_eq_some_iff.1 next
  cases result
  cases RandOver_spec turned with
  | last short =>
    obtain ⟨init, a, sequence⟩ := follows.waits
    obtain rfl : init = [] := by
      rw [sequence, List.length_append, List.length_singleton] at short
      exact List.length_eq_zero_iff.1 (by omega)
    have ne : p ≠ a.player := by
      rintro rfl
      exact isOpen (by rw [sequence]; rfl)
    unfold Follows at follows ⊢
    rw [waiting_concat sequence] at follows ⊢
    exact follows.other ne
  | other init a sequence ne =>
    unfold Follows at follows ⊢
    rw [waiting_concat sequence] at follows ⊢
    exact follows.other (Ne.symm ne)
  | next init b a sequence same =>
    subst same
    unfold Follows at follows ⊢
    rw [waiting_concat sequence, List.map_append, List.reverse_append] at follows
    rw [waiting_concat rfl]
    exact follows.next

/-- When the last fighter of a round calls `RandOver`, no round is started. -/
theorem randOver_breaks (shut : ¬ Open s p) (next : randOver w std debug s p = some t) : ¬ Follows w roster t := by
  obtain ⟨a, sequence, rfl⟩ : ∃ a, s.info.ShotSequence = [a] ∧ a.player = p := by
    obtain ⟨a, rest, sequence, player, nil⟩ := List.map_eq_cons_iff.1 (not_not.1 shut)
    obtain rfl := List.map_eq_nil_iff.1 nil
    exact ⟨a, sequence, player⟩
  obtain ⟨⟨info, calls⟩, turned, result⟩ := Option.bind_eq_some_iff.1 next
  cases result
  simp only [FightInfo.RandOver, sequence, List.length_singleton, Nat.le_refl, if_true] at turned
  cases turned
  intro follows
  unfold Follows at follows
  have waits : waiting s.info = [a.player] := by
    rw [waiting, sequence]
    rfl
  rw [waits] at follows
  exact follows.idle rfl

theorem follows_update (updated : info.Update w std debug = some (after, [.Fight f])) (keyed : Keyed info.Players) :
    Follows w info.Players.keys ⟨after, [.Update, .Fight f]⟩ := by
  cases Update_spec updated keyed with
  | round Players init last same players sorted =>
    have order : Order w info.Players.keys (waiting { info with Players := Players, ShotSequence := init ++ [last] }) := by
      constructor
      · exact (List.reverse_perm _).trans players
      · rw [waiting, List.pairwise_reverse, List.pairwise_map]
        exact sorted
    unfold Follows
    rw [waiting_concat rfl] at order ⊢
    exact .first order

/-- **The turns follow the protocol all along a run** if and only if the last fighter of the round does not end its turn. -/
theorem turns_iff {count : Nat} {ops : List Op} (reached : Runs (step w std debug) (fun _ _ => True) (FightInfo.new count) ops info)
    (completed : info.Update w std debug = some (after, [.Fight f]))
    (run : Runs (randOver w std debug) (fun _ _ => True) ⟨after, [.Update, .Fight f]⟩ ps t) :
    (∀ ps' s, ps' <+: ps → Runs (randOver w std debug) (fun _ _ => True) ⟨after, [.Update, .Fight f]⟩ ps' s →
      Follows w info.Players.keys s) ↔
    Runs (randOver w std debug) Open ⟨after, [.Update, .Fight f]⟩ ps t := by
  have keyed : Keyed info.Players := by
    apply reached.invariant (fun s => Keyed s.Players)
    · intro p it found
      cases found
    · intro s op t keyed _ next
      exact keyed.step next
  exact run.always_iff (Follows w info.Players.keys) (follows_update completed keyed) (fun _ follows => follows)
    (fun _ _ _ follows isOpen next => randOver_keeps follows isOpen next)
    fun _ _ _ _ shut next => randOver_breaks shut next

/-- The three fighters before a round, at its start and after the calls of `RandOver` by `ps`. -/
def played (ps : List FightBase) : Option (FightInfo × FightInfo × Fighting) := do
  let info ← runChecked (step three .insertion true) (fun _ _ => true) (FightInfo.new 2) joined
  let (after, calls) ← info.Update three .insertion true
  if calls = [.Fight 1] then
    let t ← runChecked (randOver three .insertion true) (fun _ _ => true) ⟨after, [.Update, .Fight 1]⟩ ps
    some (info, after, t)
  else none

theorem played_spec {r : FightInfo × FightInfo × Fighting} (h : played ps = some r) :
    Runs (step three .insertion true) (fun _ _ => True) (FightInfo.new 2) joined r.1 ∧
      r.1.Update three .insertion true = some (r.2.1, [.Fight 1]) ∧
      Runs (randOver three .insertion true) (fun _ _ => True) ⟨r.2.1, [.Update, .Fight 1]⟩ ps r.2.2 := by
  simp only [played, Option.bind_eq_bind, Option.bind_eq_some_iff] at h
  obtain ⟨info, reached, ⟨after, calls⟩, updated, h⟩ := h
  split at h
  · next same =>
    obtain ⟨t, run, result⟩ := Option.bind_eq_some_iff.1 h
    cases result
    subst same
    exact ⟨.of_checked (fun _ _ _ => trivial) reached, updated, .of_checked (fun _ _ _ => trivial) run⟩
  · cases h

/-- A call out of turn, one in turn and one out of turn. -/
theorem turns_iff_three : ∃ (info after : FightInfo) (t : Fighting),
    Runs (step three .insertion true) (fun _ _ => True) (FightInfo.new 2) joined info ∧
    info.Update three .insertion true = some (after, [.Fight 1]) ∧
    Runs (randOver three .insertion true) Open ⟨after, [.Update, .Fight 1]⟩ [2, 1, 1] t ∧
    ∀ ps s, ps <+: [2, 1, 1] → Runs (randOver three .insertion true) (fun _ _ => True) ⟨after, [.Update, .Fight 1]⟩ ps s →
      Follows three info.Players.keys s := by
  have some : ((played [2, 1, 1]).any fun r =>
      (runChecked (randOver three .insertion true) (fun s p => decide (Open s p)) ⟨r.2.1, [.Update, .Fight 1]⟩
        [2, 1, 1]).isSome) = true := by
    decide +kernel
  obtain ⟨r, h, isOpen⟩ := (Option.any_eq_true _ _).1 some
  obtain ⟨reached, completed, run⟩ := played_spec h
  obtain ⟨t, checked⟩ := Option.isSome_iff_exists.1 isOpen
  have within := Runs.of_checked (fun _ _ => of_decide_eq_true) checked
  obtain rfl := run.unique within
  exact ⟨r.1, r.2.1, r.2.2, reached, completed, within, (turns_iff reached completed run).2 within⟩

/-- Three fighters end their turns one after the other, and the next round is not started. -/
theorem round_not_started : ∃ (info after : FightInfo) (t : Fighting),
    Runs (step three .insertion true) (fun _ _ => True) (FightInfo.new 2) joined info ∧
      info.Update three .insertion true = some (after, [.Fight 1]) ∧
      Runs (randOver three .insertion true) (fun _ _ => True) ⟨after, [.Update, .Fight 1]⟩ [1, 3, 2] t ∧
      ¬ Follows three info.Players.keys t := by
  have some : ((played [1, 3, 2]).any fun r => decide (waiting r.2.2.info = [2] ∧ r.2.2.log =
      [.Update, .Fight 1, .RandOver 1, .Fight 3, .RandOver 3, .Fight 2] ++ [.RandOver 2])) = true := by decide +kernel
  obtain ⟨r, h, ends⟩ := (Option.any_eq_true _ _).1 some
  obtain ⟨reached, completed, run⟩ := played_spec h
  obtain ⟨order, log⟩ := of_decide_eq_true ends
  refine ⟨r.1, r.2.1, r.2.2, reached, completed, run, fun follows => ?_⟩
  unfold Follows at follows
  rw [order, log] at follows
  exact follows.idle rfl

end Runs

end GameServer.Fights

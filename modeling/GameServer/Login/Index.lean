import GameServer.Login.Session

/-!
# The maps of `PlayerManager`

`m_AllPlayerID` is meant to hold the players that are online, under their ids, and `m_AllPlayer`
the sessions of connections that have not been reported as disconnected. `OnDisConnect` keeps
both. `LoginGame` logs the session's previous player out and leaves it in `m_AllPlayerID`, so
the index is exact in runs in which no session changes its player (`index_exact`).
`AccountCheckResponse` makes a session for its connection without looking whether that has died
in the meantime, so the sessions are live in runs in which none has (`session_live`).
-/

namespace GameServer.Login

open GameServer.Lib

variable {m m' : PlayerManager} {conn : Conn} {id : PlayerId} {s : Session} {target : PlayerPtr} {as : List Act} {a : Act}

/-- The player after `OnPlyaerLogout`. -/
def Player.loggedOut (p : Player) : Player := { p with connect := none, state := .psOffline }

/-- The player after `OnPlyaerLogin`. -/
def Player.loggedIn (p : Player) (conn : Conn) : Player := { p with connect := some conn, state := .psOnline }

theorem unbindOther_frame (m : PlayerManager) (conn : Conn) (player : PlayerPtr) :
    ∃ allPlayer, unbindOther m conn player = { m with allPlayer := allPlayer } ∧
      ∀ c, allPlayer c = none ↔ m.allPlayer c = none := by
  unfold unbindOther
  split
  · exact ⟨_, rfl, fun _ => .rfl⟩
  · split
    · exact ⟨_, rfl, fun _ => .rfl⟩
    · next other _ =>
      split
      · exact ⟨_, rfl, fun _ => .rfl⟩
      · next session there =>
        refine ⟨_, rfl, fun c => ?_⟩
        by_cases same : c = other
        · rw [same, Function.update_self, there]
          exact ⟨nofun, nofun⟩
        · rw [Function.update_of_ne same]

/-- The first half of `LoginGame` logs the session's player out, if it is online, and takes no
session away. -/
theorem releasePlayer_frame (m : PlayerManager) (conn : Conn) (s : Session) :
    ∃ allPlayer players, releasePlayer m conn s = { m with allPlayer := allPlayer, players := players } ∧
      (∀ c, allPlayer c = none ↔ m.allPlayer c = none) ∧
      ∀ q, players q = if s.player = some q ∧ m.Online q then (m.players q).loggedOut else m.players q := by
  unfold releasePlayer
  cases names : s.player with
  | none => exact ⟨_, _, rfl, fun _ => .rfl, fun q => (if_neg fun both => nomatch both.1).symm⟩
  | some player =>
    obtain ⟨allPlayer, unbound, keys⟩ := unbindOther_frame m conn player
    simp only [unbound]
    by_cases online : (m.players player).state = .psOnline
    · rw [if_pos online]
      refine ⟨_, _, rfl, keys, fun q => ?_⟩
      by_cases same : q = player
      · rw [same, Function.update_self, if_pos ⟨rfl, online⟩]
        rfl
      · rw [Function.update_of_ne same, if_neg fun both => same (Option.some.inj both.1).symm]
    · rw [if_neg online]
      refine ⟨_, _, rfl, keys, fun q => (if_neg ?_).symm⟩
      rintro ⟨same, isOnline⟩
      obtain rfl := Option.some.inj same
      exact online isOnline

/-- `LoginGame` for a character that is found: the session's player logs out, the character logs
in and is entered in the index. -/
theorem loginGame_frame (found : findLogin m conn id = some (s, target)) :
    ∃ allPlayer players, loginGame m conn id = { m with
        allPlayer := allPlayer, players := players
        allPlayerID := Function.update m.allPlayerID (m.players target).playerid (some target) } ∧
      (∀ c, allPlayer c = none ↔ m.allPlayer c = none) ∧
      players target = (m.players target).loggedIn conn ∧
      ∀ q, q ≠ target → players q =
        if s.player = some q ∧ m.Online q then (m.players q).loggedOut else m.players q := by
  obtain ⟨allPlayer, players, released, keys, out⟩ := releasePlayer_frame m conn s
  have kept : (players target).playerid = (m.players target).playerid := by
    rw [out]
    split <;> rfl
  simp only [loginGame, found, released, onPlyaerLogin, Function.update_self, kept]
  refine ⟨_, _, rfl, fun c => ?_, ?_, fun q other => ?_⟩
  · by_cases same : c = conn
    · rw [same, Function.update_self, (findLogin_eq found).1]
      simp
    · rw [Function.update_of_ne same]
      exact keys c
  · rw [Function.update_self]
    rfl
  · rw [Function.update_of_ne other]
    exact out q

section Index

/-- A login does not log another player out and does not bring a second player of the same id
online. -/
def Switchless (m : PlayerManager) : Act → Prop
  | .loginGame conn id => ∀ s p, findLogin m conn id = some (s, p) →
    (∀ q, s.player = some q → m.Online q → q = p) ∧
      ∀ q, m.Online q → (m.players q).playerid = (m.players p).playerid → q = p
  | _ => True

/-- `m_AllPlayerID` maps exactly the ids of the players that are online to them. -/
def IndexExact (m : PlayerManager) : Prop :=
  ∀ id p, m.allPlayerID id = some p ↔ m.Online p ∧ (m.players p).playerid = id

structure Indexed (m : PlayerManager) : Prop where
  index : IndexExact m
  roster : ∀ accid chars id p, m.accPlayer accid = some chars → chars id = some p → p < m.allocated
  known : ∀ p, m.Online p → p < m.allocated

theorem Indexed.init (r : Roster) : Indexed (PlayerManager.init r) where
  index := fun _ _ => ⟨nofun, fun online => nomatch online.1⟩
  roster := r.bounded
  known := nofun

theorem Indexed.accountCheckResponse (x : Indexed m) (increament : BitVec 32) (username : String) (result : Nat) :
    Indexed (accountCheckResponse m increament username result) := by
  unfold Login.accountCheckResponse
  cases m.login increament with
  | none => exact x
  | some conn =>
    by_cases granted : result = 0
    · simp only [granted, if_true]
      refine ⟨x.index, fun accid chars id p account char => ?_, x.known⟩
      obtain ⟨chars, account, char⟩ := character_of_mapInsert account char
      exact x.roster accid chars id p account char
    · simp only [granted, if_false]
      exact ⟨x.index, x.roster, x.known⟩

theorem Indexed.loginGame (x : Indexed m) (switchless : Switchless m (.loginGame conn id)) :
    Indexed (loginGame m conn id) := by
  cases found : findLogin m conn id with
  | none =>
    unfold Login.loginGame
    rw [found]
    exact x
  | some pair =>
    obtain ⟨s, target⟩ := pair
    obtain ⟨stays, alone⟩ := switchless s target found
    obtain ⟨-, chars, account, char⟩ := findLogin_eq found
    obtain ⟨allPlayer, players, eq, -, here, others⟩ := loginGame_frame found
    -- nobody but the target changes
    have kept : ∀ q, q ≠ target → players q = m.players q := by
      intro q other
      rw [others q other, if_neg fun both => other (stays q both.1 both.2)]
    rw [eq]
    refine ⟨fun id p => ?_, x.roster, fun p online => ?_⟩
    · show Function.update m.allPlayerID (m.players target).playerid (some target) id = some p ↔
        (players p).state = .psOnline ∧ (players p).playerid = id
      by_cases same : p = target
      · rw [same, here]
        by_cases key : id = (m.players target).playerid
        · rw [key, Function.update_self]
          exact ⟨fun _ => ⟨rfl, rfl⟩, fun _ => rfl⟩
        · rw [Function.update_of_ne key, x.index]
          exact ⟨fun was => (key was.2.symm).elim, fun now => (key now.2.symm).elim⟩
      · rw [kept p same]
        by_cases key : id = (m.players target).playerid
        · rw [key, Function.update_self]
          exact ⟨fun e => (same (Option.some.inj e).symm).elim, fun now => (same (alone p now.1 now.2)).elim⟩
        · rw [Function.update_of_ne key]
          exact x.index id p
    · by_cases same : p = target
      · rw [same]
        exact x.roster _ _ _ _ account char
      · refine x.known p ?_
        have online : (players p).state = .psOnline := online
        rwa [kept p same] at online

theorem Indexed.createPlayer (x : Indexed m) (conn : Conn) : Indexed (createPlayer m conn) := by
  unfold Login.createPlayer
  cases m.allPlayer conn with
  | none => exact x
  | some s =>
    cases account : m.accPlayer s.accid with
    | none => simpa only [account] using x
    | some chars =>
      simp only [account]
      have new : ¬ m.Online m.allocated := fun online => Nat.lt_irrefl _ (x.known _ online)
      refine ⟨fun id p => ?_, fun accid chars' id p there char => ?_, fun p online => ?_⟩
      · show m.allPlayerID id = some p ↔ (Function.update m.players m.allocated _ p).state = .psOnline ∧
          (Function.update m.players m.allocated _ p).playerid = id
        by_cases same : p = m.allocated
        · rw [same, Function.update_self, x.index]
          exact ⟨fun was => (new was.1).elim, fun now => by cases now.1⟩
        · rw [Function.update_of_ne same]
          exact x.index id p
      · rcases character_of_update account there char with rfl | ⟨chars, there, char⟩
        · exact Nat.lt_succ_self _
        · exact Nat.lt_succ_of_lt (x.roster _ _ _ _ there char)
      · have online : (Function.update m.players m.allocated _ p).state = .psOnline := online
        by_cases same : p = m.allocated
        · rw [same]
          exact Nat.lt_succ_self _
        · rw [Function.update_of_ne same] at online
          exact Nat.lt_succ_of_lt (x.known p online)

/-- `OnDisConnect` logs the player of its session out, if it is online, and takes it from the
index. -/
theorem onDisConnect_players (m : PlayerManager) (conn : Conn) :
    (onDisConnect m conn).players = m.players ∧ (onDisConnect m conn).allPlayerID = m.allPlayerID ∨
    ∃ player, m.Online player ∧
      (onDisConnect m conn).players = Function.update m.players player (m.players player).loggedOut ∧
      (onDisConnect m conn).allPlayerID = Function.update m.allPlayerID (m.players player).playerid none := by
  unfold onDisConnect
  cases here : m.allPlayer conn with
  | none => exact .inl (by simp only [here, and_self])
  | some s =>
    simp only [here]
    cases s.player with
    | none => exact .inl ⟨rfl, rfl⟩
    | some player =>
      by_cases online : (m.players player).state = .psOnline
      · right
        simp only [online, if_true, onPlyaerLogout, Function.update_self]
        exact ⟨player, online, rfl, rfl⟩
      · left
        simp only [online, if_false, and_self]

theorem Indexed.onDisConnect (x : Indexed m) (conn : Conn) : Indexed (onDisConnect m conn) := by
  obtain ⟨-, accounts, allocated, -⟩ := onDisConnect_maps m conn
  suffices goal : IndexExact (Login.onDisConnect m conn) ∧ ∀ p, (Login.onDisConnect m conn).Online p → m.Online p by
    refine ⟨goal.1, by rw [accounts, allocated]; exact x.roster, fun p online => ?_⟩
    rw [allocated]
    exact x.known p (goal.2 p online)
  unfold IndexExact PlayerManager.Online
  obtain ⟨players, index⟩ | ⟨player, online, players, index⟩ := onDisConnect_players m conn
  · rw [players, index]
    exact ⟨x.index, fun _ => id⟩
  · rw [players, index]
    have entry : m.allPlayerID (m.players player).playerid = some player := (x.index _ _).2 ⟨online, rfl⟩
    refine ⟨fun id p => ?_, fun p isOnline => ?_⟩
    · by_cases same : p = player
      · rw [same, Function.update_self]
        by_cases key : id = (m.players player).playerid
        · rw [key, Function.update_self]
          exact ⟨nofun, fun now => nomatch now.1⟩
        · rw [Function.update_of_ne key, x.index]
          exact ⟨fun was => (key was.2.symm).elim, fun now => nomatch now.1⟩
      · rw [Function.update_of_ne same]
        by_cases key : id = (m.players player).playerid
        · rw [key, Function.update_self]
          refine ⟨nofun, fun was => ?_⟩
          have there := (x.index _ p).2 was
          rw [entry] at there
          exact (same (Option.some.inj there).symm).elim
        · rw [Function.update_of_ne key]
          exact x.index id p
    · by_cases same : p = player
      · rw [same]
        exact online
      · rwa [Function.update_of_ne same] at isOnline

theorem Indexed.step (x : Indexed m) (switchless : Switchless m a) (next : step m a = some m') : Indexed m' := by
  cases a with
  | accountCheck conn =>
    obtain rfl := Option.some.inj next
    exact ⟨x.index, x.roster, x.known⟩
  | accountCheckResponse increament username result =>
    obtain rfl := Option.some.inj next
    exact x.accountCheckResponse increament username result
  | loginGame conn id =>
    obtain rfl := Option.some.inj next
    exact x.loginGame switchless
  | createPlayer conn =>
    obtain rfl := Option.some.inj next
    exact x.createPlayer conn
  | disConnect conn =>
    obtain rfl := Option.some.inj next
    exact x.onDisConnect conn

/-- **The online index.** From any roster, in every run whose logins are `Switchless`, the index
is exact in every state reached. -/
theorem index_exact (r : Roster) (run : Runs step Switchless (PlayerManager.init r) as m) : IndexExact m := by
  have x : Indexed m := run.invariant Indexed (.init r) fun _ _ _ x switchless next => x.step switchless next
  exact x.index

/-- The character logs in and is in the index. -/
theorem index_exact_login : ∃ m, Runs step Switchless (PlayerManager.init oneCharacter)
    [.accountCheck 1, .accountCheckResponse 0 "acc" 0, .loginGame 1 7] m ∧ m.allPlayerID 7 = some 0 ∧ IndexExact m := by
  have asked : Runs step Switchless (PlayerManager.init oneCharacter) [.accountCheck 1] _ := .single trivial rfl
  have answered : Switchless (accountCheck (PlayerManager.init oneCharacter) 1) (.accountCheckResponse 0 "acc" 0) := trivial
  have granted := asked.snoc answered rfl
  have login : Switchless (accountCheckResponse (accountCheck (PlayerManager.init oneCharacter) 1) 0 "acc" 0)
      (.loginGame 1 7) := by
    intro s p _
    refine ⟨fun q _ online => ?_, fun q online => ?_⟩
    · cases online
    · cases online
  have playing := granted.snoc login rfl
  exact ⟨_, playing, by decide, index_exact oneCharacter playing⟩

/-- One account with two characters, `0` of id 7 and `1` of id 8. -/
def twoCharacters : Roster where
  accPlayer := fun accid => if accid = "acc" then
      some fun id => if id = 7 then some 0 else if id = 8 then some 1 else none
    else none
  playerid := fun p => if p = 0 then 7 else 8
  allocated := 2
  unique_player := 9
  bounded := by
    intro accid chars id p account char
    obtain ⟨-, ⟨⟩⟩ := Option.ite_none_right_eq_some.1 account
    dsimp only at char
    split at char
    · cases char
      decide
    · obtain ⟨-, ⟨⟩⟩ := Option.ite_none_right_eq_some.1 char
      decide

/-- A connection changes its character: the first one is offline and still in the index. -/
theorem index_stale : ∃ m, Runs step (fun _ _ => True) (PlayerManager.init twoCharacters)
    [.accountCheck 1, .accountCheckResponse 0 "acc" 0, .loginGame 1 7, .loginGame 1 8] m ∧
    m.allPlayerID 7 = some 0 ∧ ¬ m.Online 0 := by
  apply Runs.exists_of_decide
  decide

end Index

section Live

/-- A successful account check is answered for a connection that has not died. -/
def Reachable (m : PlayerManager) : Act → Prop
  | .accountCheckResponse increament _ result => result = 0 → ∀ conn, m.login increament = some conn → m.dead conn = false
  | _ => True

/-- Every session belongs to a connection that has not been reported as disconnected. -/
def SessionsLive (m : PlayerManager) : Prop :=
  ∀ conn, m.allPlayer conn ≠ none → m.dead conn = false

theorem SessionsLive.accountCheckResponse (live : SessionsLive m) {increament : BitVec 32} {username : String} {result : Nat}
    (reachable : Reachable m (.accountCheckResponse increament username result)) :
    SessionsLive (accountCheckResponse m increament username result) := by
  unfold Login.accountCheckResponse
  cases asked : m.login increament with
  | none => exact live
  | some conn =>
    by_cases granted : result = 0
    · simp only [granted, if_true]
      intro c there
      by_cases same : c = conn
      · rw [same]
        exact reachable granted conn asked
      · exact live c fun absent => there ((Function.update_of_ne same ..).trans absent)
    · simp only [granted, if_false]
      exact live

theorem SessionsLive.loginGame (live : SessionsLive m) (conn : Conn) (id : PlayerId) : SessionsLive (loginGame m conn id) := by
  cases found : findLogin m conn id with
  | none =>
    unfold Login.loginGame
    rw [found]
    exact live
  | some pair =>
    obtain ⟨allPlayer, players, eq, keys, -⟩ := loginGame_frame found
    rw [eq]
    exact fun c there => live c fun absent => there ((keys c).2 absent)

theorem SessionsLive.onDisConnect (live : SessionsLive m) (conn : Conn) : SessionsLive (onDisConnect m conn) := by
  obtain ⟨sessions, -, -, dead⟩ := onDisConnect_maps m conn
  unfold SessionsLive
  rw [sessions, dead]
  intro c there
  have other : c ≠ conn := by
    rintro rfl
    exact there (Function.update_self ..)
  rw [Function.update_of_ne other] at there ⊢
  exact live c there

theorem SessionsLive.step (live : SessionsLive m) (reachable : Reachable m a) (next : step m a = some m') :
    SessionsLive m' := by
  cases a with
  | accountCheck conn =>
    obtain rfl := Option.some.inj next
    exact live
  | accountCheckResponse increament username result =>
    obtain rfl := Option.some.inj next
    exact live.accountCheckResponse reachable
  | loginGame conn id =>
    obtain rfl := Option.some.inj next
    exact live.loginGame conn id
  | createPlayer conn =>
    obtain rfl := Option.some.inj next
    show SessionsLive (createPlayer m conn)
    unfold createPlayer
    split
    · exact live
    · split
      · exact live
      · exact live
  | disConnect conn =>
    obtain rfl := Option.some.inj next
    exact live.onDisConnect conn

/-- **No session for a dead connection**, from any roster and in every run in which account
checks are answered for living connections. -/
theorem session_live (r : Roster) (run : Runs step Reachable (PlayerManager.init r) as m) : SessionsLive m := by
  refine run.invariant SessionsLive ?_ fun _ _ _ live reachable next => live.step reachable next
  intro conn there
  exact (there rfl).elim

def reachableB (m : PlayerManager) : Act → Bool
  | .accountCheckResponse increament _ result => result ≠ 0 || (m.login increament).all fun conn => !m.dead conn
  | _ => true

theorem reachable_of_reachableB (m : PlayerManager) (a : Act) (checked : reachableB m a = true) : Reachable m a := by
  cases a with
  | accountCheckResponse increament username result =>
    intro granted conn asked
    simpa [reachableB, granted, asked] using checked
  | _ => trivial

/-- One connection gets a session, another dies before its check is made. -/
theorem session_live_visit : ∃ m, Runs step Reachable (PlayerManager.init oneCharacter)
    [.accountCheck 1, .accountCheckResponse 0 "acc" 0, .disConnect 2] m ∧ m.allPlayer 1 ≠ none ∧ m.dead 2 = true ∧
    SessionsLive m := by
  have checked : (runChecked step reachableB (PlayerManager.init oneCharacter)
      [.accountCheck 1, .accountCheckResponse 0 "acc" 0, .disConnect 2]).any
      (fun m => m.allPlayer 1 ≠ none ∧ m.dead 2 = true) = true := by decide
  obtain ⟨m, run, holds⟩ := Runs.exists_of_checked Reachable reachable_of_reachableB checked
  obtain ⟨there, dead⟩ := of_decide_eq_true holds
  exact ⟨m, run, there, dead, session_live oneCharacter run⟩

/-- The answer comes after the disconnect. -/
theorem session_late : ∃ m, Runs step (fun _ _ => True) (PlayerManager.init oneCharacter)
    [.accountCheck 1, .disConnect 1, .accountCheckResponse 0 "acc" 0] m ∧ m.allPlayer 1 ≠ none ∧ m.dead 1 = true := by
  apply Runs.exists_of_decide
  decide

end Live

end GameServer.Login

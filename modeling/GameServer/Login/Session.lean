import GameServer.Login.PlayerMgr

/-!
# Which connection a player is bound to

A player is online through one connection, `m_pConnect`, and that connection's
session names the player. `AccountCheckResponse` and `LoginGame` break this
link in three ways: a second account check on a bound connection forgets the
player, a login from a second connection leaves the first session bound, and a
login may arrive after its connection was reported dead. In a run without these
steps (`Unshared`) the link is an invariant (`Bound`), and `OnDisConnect` logs
out exactly the players of its connection (`session_bound`).
-/

namespace GameServer.Login

open GameServer.Lib

/-- What `OnDisConnect` owes in state `m`: it logs out the players whose current
connection it is and no others, and nobody is online without a live connection. -/
structure DisconnectExact (m : PlayerManager) : Prop where
  only : ∀ conn p, m.Online p → ¬ (onDisConnect m conn).Online p → (m.players p).connect = some conn
  all : ∀ conn p, m.Online p → (m.players p).connect = some conn → ¬ (onDisConnect m conn).Online p
  live : ∀ p, m.Online p → ∃ conn, (m.players p).connect = some conn ∧ m.dead conn = false

/-- The step does not share a player between two connections: an account check is
not answered for a connection somebody is online through, and a character logs in
from a live connection while it is offline or online through that same connection. -/
def Unshared (m : PlayerManager) : Act → Prop
  | .accountCheckResponse increament _ result =>
    result = 0 → ∀ conn, m.login increament = some conn → ∀ p, m.Online p → (m.players p).connect ≠ some conn
  | .loginGame conn id => ∀ session p, findLogin m conn id = some (session, p) →
    m.dead conn = false ∧ (m.Online p → (m.players p).connect = some conn)
  | _ => True

/-- Sessions and online players name each other. -/
structure Bound (m : PlayerManager) : Prop where
  session : ∀ conn s p, m.allPlayer conn = some s → s.player = some p →
    m.Online p ∧ (m.players p).connect = some conn
  online : ∀ p, m.Online p → ∃ conn s, (m.players p).connect = some conn ∧ m.dead conn = false ∧
    m.allPlayer conn = some s ∧ s.player = some p
  roster : ∀ accid chars id p, m.accPlayer accid = some chars → chars id = some p → p < m.allocated
  known : ∀ p, m.Online p → p < m.allocated

theorem Bound.init (r : Roster) : Bound (PlayerManager.init r) := by
  constructor
  · intro conn s p h; cases h
  · intro p h; cases h
  · exact r.bounded
  · intro p h; cases h

theorem Bound.accountCheck {m : PlayerManager} (b : Bound m) (conn : Conn) : Bound (accountCheck m conn) :=
  ⟨b.session, b.online, b.roster, b.known⟩

theorem findLogin_eq {m : PlayerManager} {conn : Conn} {id : PlayerId} {s : Session} {p : PlayerPtr}
    (found : findLogin m conn id = some (s, p)) :
    m.allPlayer conn = some s ∧ ∃ chars, m.accPlayer s.accid = some chars ∧ chars id = some p := by
  unfold findLogin at found
  obtain ⟨s', hs, found⟩ := Option.bind_eq_some_iff.1 found
  obtain ⟨chars, hc, found⟩ := Option.bind_eq_some_iff.1 found
  obtain ⟨p', hp, same⟩ := Option.map_eq_some_iff.1 found
  cases same
  exact ⟨hs, chars, hc, hp⟩

/-- An account check does not change who belongs to an account. -/
theorem character_of_mapInsert {accPlayer : String → Option (PlayerId → Option PlayerPtr)} {username accid : String}
    {chars : PlayerId → Option PlayerPtr} {id : PlayerId} {p : PlayerPtr}
    (account : mapInsert accPlayer username (fun _ => none) accid = some chars) (char : chars id = some p) :
    ∃ chars, accPlayer accid = some chars ∧ chars id = some p := by
  by_cases same : accid = username
  · rw [same, mapInsert, Function.update_self] at account
    obtain rfl := Option.some.inj account
    cases old : accPlayer username with
    | none =>
      rw [old] at char
      cases char
    | some chars =>
      rw [old] at char
      exact ⟨chars, same ▸ old, char⟩
  · rw [mapInsert, Function.update_of_ne same] at account
    exact ⟨chars, account, char⟩

/-- A new character is the only one that an account gets, and none if its id is taken. -/
theorem character_of_update {accPlayer : String → Option (PlayerId → Option PlayerPtr)} {accid accid' : String}
    {chars chars' : PlayerId → Option PlayerPtr} {new id : PlayerId} {p q : PlayerPtr} (old : accPlayer accid = some chars)
    (account : Function.update accPlayer accid (some (mapInsert chars new q)) accid' = some chars')
    (char : chars' id = some p) : p = q ∨ ∃ chars, accPlayer accid' = some chars ∧ chars id = some p := by
  by_cases same : accid' = accid
  · rw [same, Function.update_self] at account
    obtain rfl := Option.some.inj account
    by_cases fresh : id = new
    · rw [fresh, mapInsert, Function.update_self] at char
      cases taken : chars new with
      | none =>
        rw [taken] at char
        exact .inl (Option.some.inj char).symm
      | some r =>
        rw [taken] at char
        exact .inr ⟨chars, same ▸ old, by rw [fresh, taken]; exact char⟩
    · rw [mapInsert, Function.update_of_ne fresh] at char
      exact .inr ⟨chars, same ▸ old, char⟩
  · rw [Function.update_of_ne same] at account
    exact .inr ⟨chars', account, char⟩

/-- A player online through `conn` is the one its session names. -/
theorem Bound.player_eq {m : PlayerManager} (b : Bound m) {conn : Conn} {s : Session} {p : PlayerPtr}
    (here : m.allPlayer conn = some s) (online : m.Online p) (through : (m.players p).connect = some conn) :
    s.player = some p := by
  obtain ⟨conn', s', connect, _, there, names⟩ := b.online p online
  rw [through] at connect
  cases connect
  rw [here] at there
  cases there
  exact names

theorem Bound.accountCheckResponse {m : PlayerManager} (b : Bound m) {increament : BitVec 32} {username : String}
    {result : Nat} (unshared : Unshared m (.accountCheckResponse increament username result)) :
    Bound (accountCheckResponse m increament username result) := by
  cases asked : m.login increament with
  | none => simpa only [Login.accountCheckResponse, asked] using b
  | some conn =>
    by_cases granted : result = 0
    · have free := unshared granted conn asked
      simp only [Login.accountCheckResponse, asked, granted, if_true]
      constructor
      · intro conn' s p there names
        by_cases same : conn' = conn
        · subst same
          simp only [Function.update_self, Option.some.injEq] at there
          subst there; cases names
        · simp only [Function.update_of_ne same] at there
          exact b.session conn' s p there names
      · intro p online
        obtain ⟨conn', s, connect, live, there, names⟩ := b.online p online
        have other : conn' ≠ conn := by
          intro same; subst same; exact free p online connect
        exact ⟨conn', s, connect, live, by simp only [Function.update_of_ne other]; exact there, names⟩
      · intro accid chars id p account char
        obtain ⟨chars, account, char⟩ := character_of_mapInsert account char
        exact b.roster accid chars id p account char
      · exact b.known
    · simp only [Login.accountCheckResponse, asked, granted, if_false]
      exact ⟨b.session, b.online, b.roster, b.known⟩

/-- In a bound state `LoginGame` finds its session's player where it is, and logs it out. -/
theorem Bound.releasePlayer_eq {m : PlayerManager} (b : Bound m) {conn : Conn} {s : Session}
    (here : m.allPlayer conn = some s) :
    releasePlayer m conn s = match s.player with
      | none => m
      | some player => onPlyaerLogout m player := by
  unfold releasePlayer
  cases names : s.player with
  | none => rfl
  | some player =>
    obtain ⟨online, through⟩ := b.session conn s player here names
    have noUnbind : unbindOther m conn player = m := by simp [unbindOther, through]
    have isOnline : (m.players player).state = .psOnline := online
    simp only [noUnbind, isOnline, if_true]

/-- `LoginGame` in a bound state: the session's own player, if any, logs out, and
the character it names logs in through the connection. -/
theorem Bound.loginGame_players {m : PlayerManager} (b : Bound m) {conn : Conn} {id : PlayerId} {s : Session}
    {target : PlayerPtr} (found : findLogin m conn id = some (s, target)) (q : PlayerPtr) :
    (q = target → (loginGame m conn id).Online q ∧ ((loginGame m conn id).players q).connect = some conn) ∧
    (q ≠ target → s.player = some q → ¬ (loginGame m conn id).Online q) ∧
    (q ≠ target → s.player ≠ some q → (loginGame m conn id).players q = m.players q) := by
  simp only [loginGame, found, b.releasePlayer_eq (findLogin_eq found).1, PlayerManager.Online, onPlyaerLogin]
  refine ⟨?_, ?_, ?_⟩
  · rintro rfl; simp
  · intro other names
    simp [names, onPlyaerLogout, Function.update_of_ne other]
  · intro other differs
    rw [Function.update_of_ne other]
    cases names : s.player with
    | none => rfl
    | some player =>
      have notOld : q ≠ player := fun same => differs (by rw [names, same])
      simp [onPlyaerLogout, Function.update_of_ne notOld]

/-- `LoginGame` in a bound state touches one session. -/
theorem Bound.loginGame_maps {m : PlayerManager} (b : Bound m) {conn : Conn} {id : PlayerId} {s : Session}
    {target : PlayerPtr} (found : findLogin m conn id = some (s, target)) :
    (loginGame m conn id).allPlayer = Function.update m.allPlayer conn (some ⟨some target, s.accid⟩) ∧
    (loginGame m conn id).accPlayer = m.accPlayer ∧ (loginGame m conn id).allocated = m.allocated ∧
    (loginGame m conn id).dead = m.dead := by
  simp only [loginGame, found, b.releasePlayer_eq (findLogin_eq found).1, onPlyaerLogin]
  cases s.player <;> exact ⟨rfl, rfl, rfl, rfl⟩

theorem Bound.loginGame {m : PlayerManager} (b : Bound m) {conn : Conn} {id : PlayerId}
    (unshared : Unshared m (.loginGame conn id)) : Bound (loginGame m conn id) := by
  cases found : findLogin m conn id with
  | none => unfold Login.loginGame; rw [found]; exact b
  | some pair =>
    obtain ⟨s, target⟩ := pair
    obtain ⟨here, chars, account, char⟩ := findLogin_eq found
    obtain ⟨live, stays⟩ := unshared s target found
    obtain ⟨sessions, accounts, allocated, dead⟩ := b.loginGame_maps found
    have players := b.loginGame_players found
    have kept : ∀ q, (Login.loginGame m conn id).Online q → q ≠ target →
        m.Online q ∧ (Login.loginGame m conn id).players q = m.players q := by
      intro q online other
      have differs : s.player ≠ some q := fun names => (players q).2.1 other names online
      have same := (players q).2.2 other differs
      exact ⟨by unfold PlayerManager.Online at online ⊢; rwa [same] at online, same⟩
    constructor
    · intro conn' s' p there names
      rw [sessions] at there
      by_cases same : conn' = conn
      · subst same
        rw [Function.update_self] at there
        cases there; cases names
        exact (players target).1 rfl
      · rw [Function.update_of_ne same] at there
        obtain ⟨online, through⟩ := b.session conn' s' p there names
        have other : p ≠ target := by
          intro e; subst e
          have := stays online
          rw [through] at this
          exact same (Option.some.inj this)
        have differs : s.player ≠ some p := by
          intro names'
          have := (b.session conn s p here names').2
          rw [through] at this
          exact same (Option.some.inj this)
        have unchanged := (players p).2.2 other differs
        exact ⟨by unfold PlayerManager.Online at online ⊢; rw [unchanged]; exact online,
          by rw [unchanged]; exact through⟩
    · intro p online
      rw [sessions, dead]
      by_cases same : p = target
      · subst same
        exact ⟨conn, _, ((players p).1 rfl).2, live, Function.update_self .., rfl⟩
      · obtain ⟨was, unchanged⟩ := kept p online same
        obtain ⟨conn', s', connect, live', there, names⟩ := b.online p was
        have other : conn' ≠ conn := by
          intro e; subst e
          rw [here] at there
          cases there
          exact (players p).2.1 same names online
        exact ⟨conn', s', by rw [unchanged]; exact connect, live',
          by rw [Function.update_of_ne other]; exact there, names⟩
    · rw [accounts, allocated]; exact b.roster
    · intro p online
      rw [allocated]
      by_cases same : p = target
      · subst same; exact b.roster _ _ _ _ account char
      · exact b.known p (kept p online same).1

theorem Bound.createPlayer {m : PlayerManager} (b : Bound m) (conn : Conn) : Bound (createPlayer m conn) := by
  cases here : m.allPlayer conn with
  | none => simpa only [Login.createPlayer, here] using b
  | some s =>
    cases account : m.accPlayer s.accid with
    | none => simpa only [Login.createPlayer, here, account] using b
    | some chars =>
      have new : ∀ p, m.Online p → (Login.createPlayer m conn).players p = m.players p := by
        intro p online
        have other : p ≠ m.allocated := Nat.ne_of_lt (b.known p online)
        simp only [Login.createPlayer, here, account]
        exact Function.update_of_ne other ..
      have was : ∀ p, (Login.createPlayer m conn).Online p → m.Online p := by
        intro p online
        simp only [PlayerManager.Online, Login.createPlayer, here, account] at online
        by_cases same : p = m.allocated
        · subst same; rw [Function.update_self] at online; cases online
        · rw [Function.update_of_ne same] at online; exact online
      have sessions : (Login.createPlayer m conn).allPlayer = m.allPlayer := by
        simp only [Login.createPlayer, here, account]
      have dead : (Login.createPlayer m conn).dead = m.dead := by
        simp only [Login.createPlayer, here, account]
      have allocated : (Login.createPlayer m conn).allocated = m.allocated + 1 := by
        simp only [Login.createPlayer, here, account]
      constructor
      · intro conn' s' p there names
        obtain ⟨online, through⟩ := b.session conn' s' p (by rwa [sessions] at there) names
        exact ⟨by unfold PlayerManager.Online; rw [new p online]; exact online, by rw [new p online]; exact through⟩
      · intro p online
        obtain ⟨conn', s', connect, rest⟩ := b.online p (was p online)
        exact ⟨conn', s', by rw [new p (was p online)]; exact connect, by rw [sessions, dead]; exact rest⟩
      · intro accid chars' id p there char
        rw [allocated]
        simp only [Login.createPlayer, here, account] at there
        rcases character_of_update account there char with rfl | ⟨chars, there, char⟩
        · exact Nat.lt_succ_self _
        · exact Nat.lt_succ_of_lt (b.roster _ _ _ _ there char)
      · intro p online
        rw [allocated]
        exact Nat.lt_succ_of_lt (b.known p (was p online))

/-- `OnDisConnect` in a bound state: the players of the connection go offline, the rest stay as they are. -/
theorem Bound.onDisConnect_players {m : PlayerManager} (b : Bound m) (conn : Conn) (p : PlayerPtr) :
    (m.Online p ∧ (m.players p).connect = some conn → ¬ (onDisConnect m conn).Online p) ∧
    (¬ (m.Online p ∧ (m.players p).connect = some conn) → (onDisConnect m conn).players p = m.players p) := by
  unfold onDisConnect
  cases here : m.allPlayer conn with
  | none =>
    refine ⟨?_, fun _ => by simp only [here]⟩
    rintro ⟨online, through⟩
    obtain ⟨conn', s, connect, _, there, _⟩ := b.online p online
    rw [through] at connect
    cases connect
    rw [here] at there
    cases there
  | some s =>
    simp only [here]
    cases names : s.player with
    | none =>
      refine ⟨?_, fun _ => rfl⟩
      rintro ⟨online, through⟩
      have := b.player_eq here online through
      rw [names] at this; cases this
    | some player =>
      obtain ⟨isOnline, through⟩ := b.session conn s player here names
      have isOnline' : (m.players player).state = .psOnline := isOnline
      simp only [isOnline', if_true]
      constructor
      · rintro ⟨online, through'⟩
        have := b.player_eq here online through'
        rw [names] at this
        cases this
        simp [PlayerManager.Online, onPlyaerLogout]
      · intro elsewhere
        have other : p ≠ player := by rintro rfl; exact elsewhere ⟨isOnline, through⟩
        simp [onPlyaerLogout, Function.update_of_ne other]

/-- `OnDisConnect` drops the connection's session and no other. -/
theorem onDisConnect_maps (m : PlayerManager) (conn : Conn) :
    (onDisConnect m conn).allPlayer = Function.update m.allPlayer conn none ∧
    (onDisConnect m conn).accPlayer = m.accPlayer ∧ (onDisConnect m conn).allocated = m.allocated ∧
    (onDisConnect m conn).dead = Function.update m.dead conn true := by
  unfold onDisConnect
  cases here : m.allPlayer conn with
  | none =>
    have absent : m.allPlayer = Function.update m.allPlayer conn none := by
      rw [← here, Function.update_eq_self]
    simp only [here, and_true]
    exact absent
  | some s =>
    simp only [here]
    cases s.player with
    | none => exact ⟨rfl, rfl, rfl, rfl⟩
    | some player => dsimp only; split <;> exact ⟨rfl, rfl, rfl, rfl⟩

theorem Bound.onDisConnect {m : PlayerManager} (b : Bound m) (conn : Conn) : Bound (onDisConnect m conn) := by
  obtain ⟨sessions, accounts, allocated, dead⟩ := onDisConnect_maps m conn
  have players := b.onDisConnect_players conn
  have kept : ∀ p, (Login.onDisConnect m conn).Online p →
      m.Online p ∧ (m.players p).connect ≠ some conn ∧ (Login.onDisConnect m conn).players p = m.players p := by
    intro p online
    by_cases bound : m.Online p ∧ (m.players p).connect = some conn
    · exact absurd online ((players p).1 bound)
    · have same := (players p).2 bound
      have was : m.Online p := by unfold PlayerManager.Online at online ⊢; rwa [same] at online
      exact ⟨was, fun through => bound ⟨was, through⟩, same⟩
  constructor
  · intro conn' s p there names
    rw [sessions] at there
    have other : conn' ≠ conn := by
      rintro rfl; rw [Function.update_self] at there; cases there
    rw [Function.update_of_ne other] at there
    obtain ⟨online, through⟩ := b.session conn' s p there names
    have same := (players p).2 fun bound => other (Option.some.inj (through.symm.trans bound.2))
    exact ⟨by unfold PlayerManager.Online at online ⊢; rw [same]; exact online, by rw [same]; exact through⟩
  · intro p online
    obtain ⟨was, elsewhere, same⟩ := kept p online
    obtain ⟨conn', s, connect, live, there, names⟩ := b.online p was
    have other : conn' ≠ conn := by rintro rfl; exact elsewhere connect
    refine ⟨conn', s, by rw [same]; exact connect, ?_, ?_, names⟩
    · rw [dead, Function.update_of_ne other]; exact live
    · rw [sessions, Function.update_of_ne other]; exact there
  · rw [accounts, allocated]; exact b.roster
  · intro p online
    rw [allocated]
    exact b.known p (kept p online).1

theorem Bound.step {m m' : PlayerManager} {a : Act} (b : Bound m) (unshared : Unshared m a)
    (next : step m a = some m') : Bound m' := by
  cases a <;> cases next
  · exact b.accountCheck _
  · exact b.accountCheckResponse unshared
  · exact b.loginGame unshared
  · exact b.createPlayer _
  · exact b.onDisConnect _

theorem Bound.disconnectExact {m : PlayerManager} (b : Bound m) : DisconnectExact m := by
  constructor
  · intro conn p online logged
    by_contra elsewhere
    have same := (b.onDisConnect_players conn p).2 fun bound => elsewhere bound.2
    exact logged (by unfold PlayerManager.Online at online ⊢; rw [same]; exact online)
  · intro conn p online through
    exact (b.onDisConnect_players conn p).1 ⟨online, through⟩
  · intro p online
    obtain ⟨conn, _, connect, live, _⟩ := b.online p online
    exact ⟨conn, connect, live⟩

/-- **Session binding.** From any roster, in every run whose steps share no player
between two connections, every state reached disconnects exactly. -/
theorem session_bound (r : Roster) {as : List Act} {m : PlayerManager}
    (run : Runs step Unshared (PlayerManager.init r) as m) : DisconnectExact m := by
  have b : Bound m := run.invariant Bound (Bound.init r) fun _ _ _ b unshared next => b.step unshared next
  exact b.disconnectExact

/-- One account with one character, `p = 0` of id 7. -/
def oneCharacter : Roster where
  accPlayer := fun accid => if accid = "acc" then some fun id => if id = 7 then some 0 else none else none
  playerid := fun _ => 7
  allocated := 1
  unique_player := 8
  bounded := by
    intro accid chars id p account char
    split at account
    · cases account
      dsimp only at char
      split at char
      · cases char; decide
      · cases char
    · cases account

/-- The character logs in through connection 1 and then through connection 2. -/
def loginTwice : List Act :=
  [.accountCheck 1, .accountCheckResponse 0 "acc" 0, .loginGame 1 7,
   .accountCheck 2, .accountCheckResponse 1 "acc" 0, .loginGame 2 7]

/-- The character logs in through connection 1. -/
theorem session_bound_login : ∃ m, ((m.players 0).connect = some 1 ∧ m.Online 0) ∧ DisconnectExact m := by
  have first : Unshared (PlayerManager.init oneCharacter) (.accountCheck 1) := trivial
  have asked : Runs step Unshared (PlayerManager.init oneCharacter) _ _ := Runs.refl.snoc first rfl
  have second : Unshared (accountCheck (PlayerManager.init oneCharacter) 1) (.accountCheckResponse 0 "acc" 0) := by
    intro _ _ _ _ online; cases online
  have granted := asked.snoc second rfl
  have third : Unshared (accountCheckResponse (accountCheck (PlayerManager.init oneCharacter) 1) 0 "acc" 0)
      (.loginGame 1 7) := by
    intro s p _; exact ⟨rfl, fun online => by cases online⟩
  have playing := granted.snoc third rfl
  exact ⟨_, ⟨by decide, by decide⟩, session_bound oneCharacter playing⟩

/-- After the second login the death of the first connection kicks the player. -/
theorem session_kicked : ¬ ∀ (r : Roster) (as : List Act) (m : PlayerManager),
    Runs step (fun _ _ => True) (PlayerManager.init r) as m → DisconnectExact m := by
  intro alone
  obtain ⟨m, run, online, kicked, other⟩ : ∃ m, Runs step (fun _ _ => True) (PlayerManager.init oneCharacter) loginTwice m ∧
      m.Online 0 ∧ ¬ (onDisConnect m 1).Online 0 ∧ (m.players 0).connect ≠ some 1 := by
    apply Runs.exists_of_decide
    decide
  exact other ((alone oneCharacter loginTwice m run).only 1 0 online kicked)

end GameServer.Login

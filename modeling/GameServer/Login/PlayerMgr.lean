import GameServer.Lib.Run
import Mathlib.Logic.Function.Basic

/-!
# `PlayerManager` and the account checks

The handlers that bind connections to players: `AccountNetClient::AccountCheck`
and `AccountCheckResponse`, `PlayerManager::LoginGame`, `CreatePlayer` and
`OnDisConnect`, with `Player::OnPlyaerLogin` and `OnPlyaerLogout`. The main loop
runs one handler at a time, so a run is a list of handler calls in any order.
`LoginGame` does not yield inside its coroutine and is one step; that the coroutine
manager has a coroutine left for it is taken for granted (it takes two of the 64 and
gives back at most one).

Player objects are named by the order of their allocation; `dead` is history,
the connections `OnDisConnect` has been called for. What the handlers send to
clients does not feed back into their state and is left out.
-/

namespace GameServer.Login

abbrev Conn := Nat
abbrev PlayerPtr := Nat

/-- Player ids are counted as `unsigned int` and kept as `int`. -/
abbrev PlayerId := BitVec 32

inductive PlayerState where
  | psCache
  | psOnline
  | psOffline
  deriving DecidableEq, Repr

/-- `Player`, as far as logging in goes; a null `m_pConnect` is `none`. -/
structure Player where
  playerid : PlayerId
  state : PlayerState
  connect : Option Conn
  deriving DecidableEq, Repr

/-- `PlayerManager::Session`. -/
structure Session where
  player : Option PlayerPtr
  accid : String
  deriving DecidableEq, Repr

structure PlayerManager where
  /-- `m_AllPlayer` -/
  allPlayer : Conn → Option Session
  /-- `m_AllPlayerID` -/
  allPlayerID : PlayerId → Option PlayerPtr
  /-- `m_AccPlayer` -/
  accPlayer : String → Option (PlayerId → Option PlayerPtr)
  players : PlayerPtr → Player
  allocated : Nat
  unique_player : PlayerId
  /-- `AccountNetClient::m_pLogin`, keyed by the 32-bit `increament`. -/
  login : BitVec 32 → Option Conn
  loginGameIncreament : BitVec 32
  dead : Conn → Bool

/-- The server after `loadPlayer`: a roster of players, all offline. -/
structure Roster where
  accPlayer : String → Option (PlayerId → Option PlayerPtr)
  playerid : PlayerPtr → PlayerId
  allocated : Nat
  unique_player : PlayerId
  bounded : ∀ accid chars id p, accPlayer accid = some chars → chars id = some p → p < allocated

def PlayerManager.init (r : Roster) : PlayerManager where
  allPlayer := fun _ => none
  allPlayerID := fun _ => none
  accPlayer := r.accPlayer
  players := fun p => ⟨r.playerid p, .psOffline, none⟩
  allocated := r.allocated
  unique_player := r.unique_player
  login := fun _ => none
  loginGameIncreament := 0
  dead := fun _ => false

/-- `Player::OnPlyaerLogin`. -/
def onPlyaerLogin (m : PlayerManager) (p : PlayerPtr) (conn : Conn) : PlayerManager :=
  { m with players := Function.update m.players p { m.players p with connect := some conn, state := .psOnline } }

/-- `Player::OnPlyaerLogout`. -/
def onPlyaerLogout (m : PlayerManager) (p : PlayerPtr) : PlayerManager :=
  { m with players := Function.update m.players p { m.players p with connect := none, state := .psOffline } }

/-- `unordered_map::insert`, which keeps an entry that is already there. -/
def mapInsert {K V : Type} [DecidableEq K] (map : K → Option V) (key : K) (value : V) : K → Option V :=
  Function.update map key (some ((map key).getD value))

/-- `AccountNetClient::AccountCheck`. -/
def accountCheck (m : PlayerManager) (conn : Conn) : PlayerManager :=
  { m with
    login := mapInsert m.login m.loginGameIncreament conn
    loginGameIncreament := m.loginGameIncreament + 1 }

/-- `AccountNetClient::AccountCheckResponse`: the session is replaced, not updated. -/
def accountCheckResponse (m : PlayerManager) (increament : BitVec 32) (username : String) (result : Nat) :
    PlayerManager :=
  match m.login increament with
  | none => m
  | some conn =>
    let m : PlayerManager := if result = 0 then
        { m with
          allPlayer := Function.update m.allPlayer conn (some ⟨none, username⟩)
          accPlayer := mapInsert m.accPlayer username fun _ => none }
      else m
    { m with login := Function.update m.login increament none }

/-- The character a `LoginGame` request names, if it gets past the three lookups. -/
def findLogin (m : PlayerManager) (conn : Conn) (id : PlayerId) : Option (Session × PlayerPtr) :=
  (m.allPlayer conn).bind fun session =>
    (m.accPlayer session.accid).bind fun chars => (chars id).map fun p => (session, p)

/-- The session of another connection that the session's player has moved to is unbound. -/
def unbindOther (m : PlayerManager) (conn : Conn) (player : PlayerPtr) : PlayerManager :=
  if (m.players player).connect = some conn then m
  else match (m.players player).connect with
    | none => m
    | some other => match m.allPlayer other with
      | none => m
      | some session => { m with allPlayer := Function.update m.allPlayer other (some { session with player := none }) }

/-- The first half of `LoginGame`: the session's own player, if any, is unbound
elsewhere and logged out. -/
def releasePlayer (m : PlayerManager) (conn : Conn) (session : Session) : PlayerManager :=
  match session.player with
  | none => m
  | some player =>
    let m := unbindOther m conn player
    if (m.players player).state = .psOnline then onPlyaerLogout m player else m

/-- `PlayerManager::LoginGame` for a request that parses. -/
def loginGame (m : PlayerManager) (conn : Conn) (id : PlayerId) : PlayerManager :=
  match findLogin m conn id with
  | none => m
  | some (session, target) =>
    let m := onPlyaerLogin (releasePlayer m conn session) target conn
    { m with
      allPlayer := Function.update m.allPlayer conn (some ⟨some target, session.accid⟩)
      allPlayerID := Function.update m.allPlayerID (m.players target).playerid (some target) }

/-- `PlayerManager::CreatePlayer`. -/
def createPlayer (m : PlayerManager) (conn : Conn) : PlayerManager :=
  match m.allPlayer conn with
  | none => m
  | some session => match m.accPlayer session.accid with
    | none => m
    | some chars =>
      { m with
        players := Function.update m.players m.allocated ⟨m.unique_player, .psOffline, none⟩
        allocated := m.allocated + 1
        unique_player := m.unique_player + 1
        accPlayer := Function.update m.accPlayer session.accid
          (some (mapInsert chars m.unique_player m.allocated)) }

/-- `PlayerManager::OnDisConnect`. -/
def onDisConnect (m : PlayerManager) (conn : Conn) : PlayerManager :=
  let m := { m with dead := Function.update m.dead conn true }
  match m.allPlayer conn with
  | none => m
  | some session =>
    let m : PlayerManager := match session.player with
      | none => m
      | some player =>
        if (m.players player).state = .psOnline then
          let m := onPlyaerLogout m player
          { m with allPlayerID := Function.update m.allPlayerID (m.players player).playerid none }
        else m
    { m with allPlayer := Function.update m.allPlayer conn none }

inductive Act where
  | accountCheck (conn : Conn)
  | accountCheckResponse (increament : BitVec 32) (username : String) (result : Nat)
  | loginGame (conn : Conn) (id : PlayerId)
  | createPlayer (conn : Conn)
  | disConnect (conn : Conn)
  deriving DecidableEq, Repr

def step (m : PlayerManager) : Act → Option PlayerManager
  | .accountCheck conn => some (accountCheck m conn)
  | .accountCheckResponse increament username result => some (accountCheckResponse m increament username result)
  | .loginGame conn id => some (loginGame m conn id)
  | .createPlayer conn => some (createPlayer m conn)
  | .disConnect conn => some (onDisConnect m conn)

def PlayerManager.Online (m : PlayerManager) (p : PlayerPtr) : Prop := (m.players p).state = .psOnline

instance (m : PlayerManager) (p : PlayerPtr) : Decidable (m.Online p) :=
  inferInstanceAs (Decidable (_ = _))

end GameServer.Login

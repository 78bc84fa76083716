import GameServer.Lib.Run
import GameServer.Lib.Bytes
import GameServer.Lib.Cutting
import GameServer.Lib.Mailbox
import GameServer.Lib.Requests
import GameServer.LibGame.SendQueue
import GameServer.LibGame.Service
import GameServer.LibGame.Delivery
import GameServer.Net.Pack
import GameServer.Net.Client
import GameServer.Net.Framing
import GameServer.Lib.Sweep
import GameServer.Aoi.Space
import GameServer.Aoi.Views
import GameServer.Aoi.Update
import GameServer.Aoi.Geometry
import GameServer.Aoi.Moves
import GameServer.Aoi.Entering
import GameServer.Aoi.Exact
import GameServer.Aoi.MapManager
import GameServer.Aoi.Mutual
import GameServer.Aoi.Walks
import GameServer.Aoi.Symmetry
import GameServer.Aoi.Leaving
import GameServer.Login.PlayerMgr
import GameServer.Login.Session
import GameServer.Login.Index
import GameServer.Login.Routing
import GameServer.Net.WebSocket
import GameServer.Net.WebReads
import GameServer.Net.WebFrames
import GameServer.Net.Sending
import GameServer.Net.Service
import GameServer.Net.Lifecycle
import GameServer.Net.WebLengths
import GameServer.Net.WebControl
import GameServer.Net.WebPayloads
import GameServer.Lib.Utf
import GameServer.Text.Splitting
import GameServer.Text.Delimiters
import GameServer.Text.Utf8
import GameServer.Lib.Sequences
import GameServer.Text.Shapes
import GameServer.Text.Filtering
import GameServer.Text.Urls
import GameServer.Net.Opening
import GameServer.Timers.Alarms
import GameServer.Timers.Layering
import GameServer.Timers.LayeringSlots
import GameServer.Timers.LayeringInv
import GameServer.Timers.LayeringExact
import GameServer.Timers.Wheel
import GameServer.Timers.WheelTicks
import GameServer.Timers.WheelInv
import GameServer.Timers.WheelExact
import GameServer.Timers.WheelPeriodic
import GameServer.Timers.WheelPrompt
import GameServer.Timers.WheelBounds
import GameServer.Timers.WheelEnds
import GameServer.Db.Ids
import GameServer.Lib.Trie
import GameServer.Text.KeywordFilter
import GameServer.Text.KeyPos
import GameServer.Text.Replacing
import GameServer.Db.Service
import GameServer.LibGame.SharedObject
import GameServer.LibGame.SharedMemory
import GameServer.LibGame.DirtyBlocks
import GameServer.Lib.Decimal
import GameServer.Lib.Search
import GameServer.Http.Connect
import GameServer.Http.Head
import GameServer.Http.Lengths
import GameServer.Http.Chunks
import GameServer.Lib.Varint
import GameServer.Proto.Data
import GameServer.Proto.RoundTrip
import GameServer.Proto.Sizes
import GameServer.Proto.Unknown
import GameServer.Proto.Loading
import GameServer.Proto.Files
import GameServer.LibGame.Words
import GameServer.LibGame.IniFile
import GameServer.LibGame.IniText
import GameServer.Lib.Linked
import GameServer.Coordinates.System
import GameServer.Coordinates.Space
import GameServer.Coordinates.Lines
import GameServer.Coordinates.Operations
import GameServer.Coordinates.Triggers
import GameServer.Coordinates.Spaces
import GameServer.Coordinates.WellFormed
import GameServer.Coordinates.RangeQuery
import GameServer.Witnesses.Witness
import GameServer.Witnesses.Teardown
import GameServer.Witnesses.Radius
import GameServer.Lib.Forest
import GameServer.Logic.Coroutines
import GameServer.Logic.Components
import GameServer.Logic.Powers
import GameServer.Lib.Sorting
import GameServer.Containers.RankTemplate
import GameServer.Lib.Top
import GameServer.Containers.RankBoard
import GameServer.Lib.Ring
import GameServer.Containers.CircularQueue
import GameServer.Containers.Copying
import GameServer.Db.Statements
import GameServer.Db.Placeholders
import GameServer.Db.Closing
import GameServer.Lib.Calendar
import GameServer.Db.Dates
import GameServer.Timers.Daily
import GameServer.Tools.Handlers
import GameServer.Lib.Nested
import GameServer.Tools.Tables
import GameServer.Tools.TableLoads
import GameServer.Lib.Agenda
import GameServer.Lib.Heap
import GameServer.Timers.Manager
import GameServer.LibGame.MinHeap
import GameServer.LibGame.TimerManager
import GameServer.Lib.Worklist
import GameServer.Json.Value
import GameServer.Json.Convert
import GameServer.Json.RoundTrip
import GameServer.Lib.Termination
import GameServer.Lib.Frontier
import GameServer.Lib.BestFirst
import GameServer.AStar.Search
import GameServer.AStar.Paths
import GameServer.AStar.Shortest
import GameServer.AStar.Accesses
import GameServer.Lib.OrderedMap
import GameServer.Lib.KeyedSet
import GameServer.Fights.FightInfo
import GameServer.Fights.Roster
import GameServer.Fights.Turns
import GameServer.Lib.Carry
import GameServer.Fights.Rounds
import GameServer.Timers.LayeringPlaces
import GameServer.Timers.LayeringLives
import GameServer.Timers.LayeringAdjust
import GameServer.Timers.LayeringNormal
import GameServer.Timers.LayeringBudget
import GameServer.Lib.CString
import GameServer.Json.Reader
import GameServer.Json.Writer
import GameServer.Json.Texts
import GameServer.Json.Written
import GameServer.Lua.VarInt
import GameServer.Lua.Archiver
import GameServer.Lua.Archives
import GameServer.Lua.Saving

import NodeServer.Model.Keys

/-! # Data and process state

One server process is a node event loop: its client connections, its
`userList`, the Redis calls it is waiting for and the notices it has emitted to
other processes. An outstanding call carries what its callback has captured, so
the callback can be run when the reply arrives. -/

namespace NodeServer

/-- A server process, by its `INSTANCE_ID`. -/
abbrev Pid := ℕ

structure AppInfo where
  serverHost : Str
  serverPort : Str
  deriving DecidableEq

/-- `Common.appInfo` (common.js, app-config.js). The port is kept as decimal
text: it is only ever compared, with `==`, to the text Redis gives back. -/
def appInfo (p : Pid) : AppInfo := ⟨"ws://127.0.0.1".toList, natText (9878 + p)⟩

theorem appInfo_injective : Function.Injective appInfo := by
  intro p q h
  have hp : 9878 + p = 9878 + q := natText_injective (congrArg AppInfo.serverPort h)
  exact Nat.add_left_cancel hp

/-- `User` (users.js:13). `ref` is the identity of the object; its `noticeId`
is kept by the process. `websocket` is false for `null`. -/
structure User where
  ref : ℕ
  userId : Str
  socketId : Str
  websocket : Bool
  connectTime : Str
  loginTime : Str
  serverHost : Str
  serverPort : Str
  deriving DecidableEq

def User.appInfo (user : User) : AppInfo := ⟨user.serverHost, user.serverPort⟩

/-- The five notice classes with their `req_data`. -/
inductive Notice where
  | kick (userId : Str)
  | roomIn (userId : Str)
  | roomOut (userId : Str)
  | roomClose (roomId : JsVal)
  | sendMsg (userId msg : Str)
  deriving DecidableEq

def Notice.isKick : Notice → Bool
  | .kick _ => true
  | _ => false

/-- `SendMsgNotice` (sendmsg-notice.js:15). -/
def sendMsgNotice (fromUserId : Str) (msg : JsVal) : Notice :=
  .sendMsg fromUserId ('[' :: (fromUserId ++ ']' :: ':' :: ' ' :: msg.text))

/-- What `NoticeSender.send` emits to another process (notice-sender.js:44). -/
structure Packet where
  url : AppInfo
  socketId : Str
  notice : Notice
  deriving DecidableEq

/-! ### Requests and responses -/

inductive Route where
  | heartbeat
  | login
  | logout
  | roomList
  | roomCreate
  | roomClose
  | roomIn
  | roomOut
  | sendLiveChat
  | sendMsg
  deriving DecidableEq

def Route.name : Route → Str
  | .heartbeat => "heartbeat".toList
  | .login => "imLogin/login".toList
  | .logout => "imLogin/logout".toList
  | .roomList => "imMan/roomList".toList
  | .roomCreate => "imMan/roomCreate".toList
  | .roomClose => "imMan/roomClose".toList
  | .roomIn => "imMan/roomIn".toList
  | .roomOut => "imMan/roomOut".toList
  | .sendLiveChat => "imShare/sendLiveChat".toList
  | .sendMsg => "imShare/sendMsg".toList

/-- `HandleRouter.getAllRoutes` (client-bridge-router.js:38). -/
def allRoutes : List Route :=
  [.heartbeat, .login, .logout, .roomList, .roomCreate, .roomClose, .roomIn, .roomOut,
    .sendLiveChat, .sendMsg]

/-- Names `routeMap` inherits from `Object.prototype`: they are found, but are
no handler class. -/
def inheritedNames : List Str :=
  ["constructor".toList, "__defineGetter__".toList, "__defineSetter__".toList,
    "hasOwnProperty".toList, "__lookupGetter__".toList, "__lookupSetter__".toList,
    "isPrototypeOf".toList, "propertyIsEnumerable".toList, "toString".toList,
    "valueOf".toList, "__proto__".toList, "toLocaleString".toList]

inductive RouteEntry where
  | handler (route : Route)
  | inherited
  deriving DecidableEq

/-- `HandleRouter.getRouterByName` (client-bridge-router.js:53). -/
def getRouterByName (name : Str) : Option RouteEntry :=
  match allRoutes.find? fun r => r.name = name with
  | some r => some (.handler r)
  | none => if name ∈ inheritedNames then some .inherited else none

/-- A client message: `req_data` with the fields the handlers read. A user id
is a text, or `none` for `null` and a missing field. -/
structure Request where
  id : ℕ
  route : Str
  userId : Option Str
  roomId : JsVal
  toUserId : Option Str
  msg : JsVal

/-- `resData.data`. The login answer also holds a fixed sample room list. -/
inductive RespData where
  | empty
  | room (roomId : JsVal)
  | roomList (roomList : List Str)
  | login (socketId userId : Str)

/-- `respond.resData` (base-handler.js:15). -/
structure ResData where
  id : ℕ
  route : Route
  errno : ℕ
  errmsg : Str
  data : RespData

/-- A text frame written to a client. A forwarded notice also carries the
`socketId` field it was addressed with. -/
inductive Frame where
  | respond (resData : ResData)
  | notice (id : ℕ) (notice : Notice) (socketId : Option Str)

/-- `getRoute` of the notice classes. -/
def Notice.route : Notice → Str
  | .kick _ => "imShare/kickNotice".toList
  | .roomIn _ => "imShare/enterRoomNotice".toList
  | .roomOut _ => "imShare/leaveRoomNotice".toList
  | .roomClose _ => "imShare/roomCloseNotice".toList
  | .sendMsg _ _ => "imShare/sendChatNotice".toList

/-- A handler at work: the connection of its `ctx` and its `respond`. -/
structure Handler where
  socketId : Str
  resData : ResData

/-- A login past the check for an earlier one (login-handler.js:36). -/
structure LoginReq where
  user : User
  id : ℕ

/-! ### Outstanding Redis calls -/

/-- Who awaits `NoticeSender.send`. -/
inductive AfterSend where
  | nobody
  | login (l : LoginReq)

/-- What `getUserWithId(userId).then` continues with. -/
inductive LookupFor where
  | notice (notice : Notice) (after : AfterSend)
  | loginKick (l : LoginReq)
  | sendMsg (user : User) (msg : JsVal)

/-- A Redis call in flight, named after the function that made it. `user` is
`none` where a handler goes on with an undefined user. -/
inductive Call where
  | lookupKeys (userId : Str) (next : LookupFor)
  | lookupHash (key : Str) (rest : List Str) (userList : List User) (next : LookupFor)
  | loginSet (l : LoginReq)
  | logoutDel (user : User)
  | addRoomIncr (user : Option User) (h : Handler)
  | addRoomSet (roomId : ℕ) (h : Handler)
  | delRoomKeys (user : Option User) (roomId : JsVal) (h : Handler)
  | delRoomExec (roomId : JsVal) (h : Handler)
  | broadcastKeys (user : Option User) (roomId msg : JsVal) (h : Handler)
  | broadcastMembers (user : Option User) (roomId msg : JsVal) (h : Handler)
  | roomListKeys (user : Option User) (h : Handler)
  | roomListGet (key : Str) (rest : List Str) (roomList : List Str) (h : Handler)
  | addRoomUserKeys (user : Option User) (roomId : JsVal) (h : Handler)
  | addRoomUserMembers (user : User) (roomId : JsVal) (h : Handler)
  | addRoomUserAdd (user : User) (roomId : JsVal) (h : Handler)
  | delRoomUserMembers (user : Option User) (roomId : JsVal) (h : Option Handler)
  | delRoomUserRem (user : User) (roomId : JsVal) (h : Option Handler)

/-- The fields of an online record (online-users.js:116-122). -/
def User.record (user : User) : List (Str × Str) :=
  [(DBModelKeys.SocketIdKey, user.socketId), (DBModelKeys.UserIdKey, user.userId),
    (DBModelKeys.ConnectTimeKey, user.connectTime), (DBModelKeys.LoginTimeKey, user.loginTime),
    (DBModelKeys.ServerHostKey, user.serverHost), (DBModelKeys.ServerPortKey, user.serverPort)]

def User.key (user : User) : Str := uniquePattern user.userId user.socketId

/-- The command each call sends. -/
def Call.txn : Call → Store.Txn
  | .lookupKeys userId _ => .one (.keys (userIdPattern userId))
  | .lookupHash key _ _ _ => .one (.hgetall key)
  | .loginSet l => .one (.hmset l.user.key l.user.record)
  | .logoutDel user => .one (.del user.key)
  | .addRoomIncr _ _ => .one (.incr DBModelKeys.RoomMaxIdKey)
  | .addRoomSet roomId _ =>
    .one (.hmset (roomPattern (natText roomId)) [(DBModelKeys.RoomIdKey, natText roomId)])
  | .delRoomKeys _ roomId _ => .one (.keys (roomPattern roomId.text))
  | .delRoomExec roomId _ => .multi [.smembers (memberPattern roomId.text),
      .del (memberPattern roomId.text), .del (roomPattern roomId.text)]
  | .broadcastKeys _ roomId _ _ => .one (.keys (roomPattern roomId.text))
  | .broadcastMembers _ roomId _ _ => .one (.smembers (memberPattern roomId.text))
  | .roomListKeys _ _ => .one (.keys roomListPattern)
  | .roomListGet key _ _ _ => .one (.hget key DBModelKeys.RoomIdKey)
  | .addRoomUserKeys _ roomId _ => .one (.keys (roomPattern roomId.text))
  | .addRoomUserMembers _ roomId _ => .one (.smembers (memberPattern roomId.text))
  | .addRoomUserAdd user roomId _ => .one (.sadd (memberPattern roomId.text) user.userId)
  | .delRoomUserMembers _ roomId _ => .one (.smembers (memberPattern roomId.text))
  | .delRoomUserRem user roomId _ => .one (.srem (memberPattern roomId.text) user.userId)

/-! ### Connections and processes -/

/-- `readyState` of an accepted websocket. `send` throws unless it is open;
the close event of a closing one is still to come. -/
inductive WsState where
  | opened
  | closing
  | closed
  deriving DecidableEq

/-- A client connection: its `ctx`, and whether the promise its listeners
resolve or reject is settled (client-main-router.js:36). -/
structure Conn where
  ws : WsState
  connectTtime : Str
  userId : Option Str
  roomId : JsVal
  settled : Bool
  frames : List Frame

structure Proc where
  conns : Table Conn
  userList : Table User
  noticeId : ℕ → ℕ
  nextRef : ℕ
  sent : List Call
  answered : List (Call × Store.Reply)
  outbox : List Packet
  uncaught : Bool

def Proc.initial : Proc := ⟨∅, ∅, fun _ => 0, 0, [], [], [], false⟩

/-- The calls a process is waiting for. -/
def Proc.calls (x : Proc) : List Call := x.answered.map Prod.fst ++ x.sent

def Proc.ws (x : Proc) (s : Str) : Option WsState := (x.conns.get s).map Conn.ws

end NodeServer

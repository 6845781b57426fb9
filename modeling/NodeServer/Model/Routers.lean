import NodeServer.Model.Rooms

/-! # Handlers and routers
(`client/handler/*.js`, `client-main-router.js`, `server-main-router.js`)

`react` is what a process does on one input of its event loop: a new
connection, an event of one of its websockets, the reply to one of its Redis
calls, or a notice forwarded by another process. Promise chains without pending
I/O run to their end within the input that started them. -/

namespace NodeServer

namespace Proc

/-! ### Answering a request (client-main-router.js:57-78) -/

/-- `resolve` or `reject` of the connection's promise; only the first counts. -/
def settle (s : Str) (x : Proc) : Proc := x.setConn s fun c => { c with settled := true }

/-- Write the response, close the connection for a logout and settle. When the
write throws, the rest of the listener does not run. -/
def sendRespond (h : Handler) (isKick : Bool) (x : Proc) : Proc :=
  match x.wsSend h.socketId (.respond h.resData) with
  | none => x
  | some y => (if isKick then y.wsClose h.socketId else y).settle h.socketId

/-- `BaseHandler.getBaseRespond` (base-handler.js:28). -/
def getBaseRespond (s : Str) (id : ℕ) (route : Route) (x : Proc) : Handler :=
  match x.getUserWithSocket s with
  | none => ⟨s, ⟨id, route, 10002, "Need to login.".toList, .empty⟩⟩
  | some _ => ⟨s, ⟨id, route, 0, [], .empty⟩⟩

end Proc

def Handler.withData (h : Handler) (data : RespData) : Handler :=
  { h with resData := { h.resData with data := data } }

def Handler.withError (h : Handler) (errno : ℕ) (errmsg : Str) : Handler :=
  { h with resData := { h.resData with errno := errno, errmsg := errmsg } }

namespace Proc

/-- The common `.then(result => ...)` of the room handlers. -/
def roomResult (h : Handler) (data : RespData) (err : Option Str) (x : Proc) : Proc :=
  match err with
  | none => x.sendRespond (h.withData data) false
  | some err => x.sendRespond (h.withError 16104 err) false

/-- roomin-handler.js:28. -/
def roomInResult (h : Handler) (roomId : JsVal) (err : Option Str) (x : Proc) : Proc :=
  match err with
  | none => (x.setConn h.socketId fun c => { c with roomId := roomId }).roomResult h (.room roomId) none
  | some err => x.roomResult h (.room roomId) (some err)

/-- roomout-handler.js:30; `disconnect` does not wait for the result. -/
def roomOutResult (h : Option Handler) (roomId : JsVal) (err : Option Str) (x : Proc) : Proc :=
  match h, err with
  | none, _ => x
  | some h, none =>
    (x.setConn h.socketId fun c => { c with roomId := .undefined }).roomResult h (.room roomId) none
  | some h, some err => x.roomResult h (.room roomId) (some err)

/-- The end of `LoginHandler.handle` (login-handler.js:67-91). -/
def loginRespond (s : Str) (id : ℕ) (x : Proc) : Proc :=
  match x.getUserWithSocket s with
  | some user =>
    (x.setConn s fun c => { c with userId := some user.userId }).sendRespond
      ((x.getBaseRespond s id .login).withData (.login user.socketId user.userId)) false
  | none => x.sendRespond ((x.getBaseRespond s id .login).withError 10002 "login fail.".toList) false

/-- `LoginHandler.handle` (login-handler.js:29) up to its first reply. -/
def loginHandle (p : Pid) (s : Str) (id : ℕ) (userId : Option Str) (now : ℕ) (x : Proc) : Proc :=
  match userId, x.getUserWithSocket s with
  | some userId, none =>
    let connectTime := ((x.conns.get s).map Conn.connectTtime).getD []
    let user := createUserWithLogin p x.nextRef userId s connectTime (natText now)
    x.newRef.getUserWithId userId (.notice (.kick userId) (.login ⟨user, id⟩))
  | _, _ => x.loginRespond s id

/-- `ctx.roomId`. -/
def ctxRoomId (s : Str) (x : Proc) : JsVal := ((x.conns.get s).map Conn.roomId).getD .undefined

/-- The request handlers. -/
def handle (p : Pid) (s : Str) (route : Route) (req : Request) (now : ℕ) (x : Proc) : Proc :=
  let h := x.getBaseRespond s req.id route
  let user := x.getUserWithSocket s
  match route with
  | .heartbeat => x.sendRespond h false
  | .login => x.loginHandle p s req.id req.userId now
  | .logout => x.sendRespond h user.isSome
  | .roomList => x.getRoomList user h
  | .roomCreate => x.addRoom user h
  | .roomClose => x.delRoom user req.roomId h
  | .roomIn => x.addRoomUser user req.roomId h
  | .roomOut =>
    if (x.ctxRoomId s).isNull then
      x.sendRespond (h.withError 16105 "you are not in live room.".toList) false
    else x.delRoomUser user req.roomId (some h)
  | .sendLiveChat =>
    if (x.ctxRoomId s).isNull then
      x.sendRespond (h.withError 16105 "you are not in live room.".toList) false
    else x.broadcast user (x.ctxRoomId s) req.msg h
  | .sendMsg =>
    match user, req.toUserId with
    | some user, some toUserId =>
      (x.getUserWithId toUserId (.sendMsg user req.msg)).sendRespond h false
    | _, _ => x.sendRespond h false

/-! ### Connection events (client-main-router.js:22-107) -/

/-- `disconnect` (client-main-router.js:22). -/
def disconnect (s : Str) (x : Proc) : Proc :=
  match x.getUserWithSocket s with
  | none => x
  | some user =>
    if (x.ctxRoomId s).isNull then x.logout user
    else (x.logout user).delRoomUser (some user) (x.ctxRoomId s) none

def isSettled (s : Str) (x : Proc) : Bool := ((x.conns.get s).map Conn.settled).getD true

/-- `reject` of the connection's promise: unless it is settled, the `catch`
disconnects (client-main-router.js:100). -/
def rejectConn (s : Str) (x : Proc) : Proc :=
  if x.isSettled s then x else (x.settle s).disconnect s

def onMessage (p : Pid) (s : Str) (req : Request) (now : ℕ) (x : Proc) : Proc :=
  match getRouterByName req.route with
  | some (.handler route) => x.handle p s route req now
  | some .inherited => x
  | none => x.rejectConn s

def setWs (s : Str) (ws : WsState) (x : Proc) : Proc := x.setConn s fun c => { c with ws := ws }

def onClose (s : Str) (x : Proc) : Proc := ((x.setWs s .closed).disconnect s).rejectConn s

def onError (s : Str) (x : Proc) : Proc := ((x.setWs s .closing).disconnect s).rejectConn s

/-- A new connection (im-service.js:36-50). -/
def onConnect (s : Str) (now : ℕ) (x : Proc) : Proc :=
  { x with conns := x.conns.set s ⟨.opened, natText now, none, .undefined, false, []⟩ }

/-! ### Forwarded notices (server-main-router.js:28-58) -/

/-- The write to a websocket that is not open throws out of the listener. -/
def onPacket (packet : Packet) (x : Proc) : Proc :=
  match x.getUserWithSocket packet.socketId with
  | none => x
  | some user =>
    let y := x.bumpNotice user
    match y.wsSend user.socketId
        (.notice (x.noticeId user.ref) packet.notice (some packet.socketId)) with
    | none => { y with uncaught := true }
    | some z => if packet.notice.isKick then z.wsClose user.socketId else z

/-! ### Redis callbacks -/

def onReply (p : Pid) (c : Call) (r : Store.Reply) (x : Proc) : Proc :=
  match c with
  | .lookupKeys _ next => x.onLookupKeys p next r
  | .lookupHash _ rest userList next => x.onLookupHash p next rest userList r
  -- setUserToRedis installs the user whether or not HMSET succeeded
  | .loginSet l => (x.addUser l.user).loginRespond l.user.socketId l.id
  | .logoutDel _ => x
  | .addRoomIncr user h => onAddRoomIncr (roomResult h .empty) user h r x
  | .addRoomSet roomId h => onAddRoomSet (roomResult h (.room (.num roomId))) r x
  | .delRoomKeys user roomId h => onDelRoomKeys (roomResult h (.room roomId)) user roomId h r x
  | .delRoomExec roomId h => onDelRoomExec (roomResult h (.room roomId)) roomId r x
  | .broadcastKeys user roomId msg h => onBroadcastKeys (roomResult h .empty) user roomId msg h r x
  | .broadcastMembers user _ msg h => onBroadcastMembers (roomResult h .empty) user msg r x
  | .roomListKeys user h => onRoomListKeys (fun l => roomResult h (.roomList l) none) user h r x
  | .roomListGet _ rest roomList h =>
    onRoomListGet (fun l => roomResult h (.roomList l) none) rest roomList h r x
  | .addRoomUserKeys user roomId h => onAddRoomUserKeys (roomInResult h roomId) user roomId h r x
  | .addRoomUserMembers user roomId h => onAddRoomUserMembers user roomId h r x
  | .addRoomUserAdd _ roomId h =>
    match r with
    | .error err => x.roomInResult h roomId (some err)
    | _ => x.roomInResult h roomId none
  | .delRoomUserMembers user roomId h => onDelRoomUserMembers user roomId h r x
  | .delRoomUserRem _ roomId h =>
    match r with
    | .error err => x.roomOutResult h roomId (some err)
    | _ => x.roomOutResult h roomId none

end Proc

/-! ### The event loop -/

inductive Input where
  | connect (s : Str) (now : ℕ)
  | message (s : Str) (req : Request) (now : ℕ)
  | peerClose (s : Str)
  | wsError (s : Str)
  | wsClose (s : Str)
  | reply (c : Call) (r : Store.Reply)
  | packet (packet : Packet)

def react (p : Pid) (i : Input) (x : Proc) : Proc :=
  match i with
  | .connect s now => x.onConnect s now
  | .message s req now => x.onMessage p s req now
  | .peerClose s => x.wsClose s
  | .wsError s => x.onError s
  | .wsClose s => x.onClose s
  | .reply c r => x.onReply p c r
  | .packet packet => x.onPacket packet

end NodeServer

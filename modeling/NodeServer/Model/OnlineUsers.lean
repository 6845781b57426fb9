import NodeServer.Model.State

/-! # Users, lookups and notices
(`users.js`, `online-users.js`, `notice-sender.js`, `base-notice.js`)

Each function is one synchronous stretch of the code on the state of its
process. An `await` on Redis ends a stretch with `issue`; the rest of the
function is the callback of the issued call. -/

namespace NodeServer

namespace Proc

def issue (c : Call) (x : Proc) : Proc := { x with sent := x.sent ++ [c] }

def setConn (s : Str) (f : Conn → Conn) (x : Proc) : Proc :=
  { x with conns := x.conns.modify s f }

/-- `websocket.send`; `none` when it throws. -/
def wsSend (s : Str) (frame : Frame) (x : Proc) : Option Proc :=
  if x.ws s = some .opened then
    some (x.setConn s fun c => { c with frames := c.frames ++ [frame] })
  else none

/-- `websocket.close()`. -/
def wsClose (s : Str) (x : Proc) : Proc :=
  x.setConn s fun c => if c.ws = .opened then { c with ws := .closing } else c

/-! ### `UserManager` (users.js:57) -/

def addUser (user : User) (x : Proc) : Proc :=
  { x with userList := x.userList.set user.socketId user }

def delUser (socketId : Str) (x : Proc) : Proc :=
  { x with userList := x.userList.del socketId }

def getUserWithSocket (socketId : Str) (x : Proc) : Option User := x.userList.get socketId

end Proc

/-- `User.createUserWithLogin` (users.js:25). -/
def createUserWithLogin (p : Pid) (ref : ℕ) (userId socketId connectTime loginTime : Str) : User :=
  ⟨ref, userId, socketId, true, connectTime, loginTime, (appInfo p).serverHost,
    (appInfo p).serverPort⟩

def fieldOf (res : List (Str × Str)) (field : Str) : Str := (res.lookup field).getD []

/-- `User.createUserWithRedis` (users.js:35) from the hash of a record. -/
def createUserWithRedis (ref : ℕ) (res : List (Str × Str)) : User :=
  ⟨ref, fieldOf res DBModelKeys.UserIdKey, fieldOf res DBModelKeys.SocketIdKey, false,
    fieldOf res DBModelKeys.ConnectTimeKey, fieldOf res DBModelKeys.LoginTimeKey,
    fieldOf res DBModelKeys.ServerHostKey, fieldOf res DBModelKeys.ServerPortKey⟩

namespace Proc

/-! ### `OnlineUserManager` (online-users.js) -/

/-- `logout` (online-users.js:44). -/
def logout (user : User) (x : Proc) : Proc := (x.delUser user.socketId).issue (.logoutDel user)

/-- `logoutAllLocalUsers` (online-users.js:102) over `getUsers` (users.js:74); the
list itself is left as it is. -/
def logoutAllLocalUsers (x : Proc) : Proc :=
  x.userList.keys.foldl (fun y socketId =>
    match x.getUserWithSocket socketId with
    | some user => y.issue (.logoutDel user)
    | none => y) x

/-- `getUserWithId` (online-users.js:73) up to its first reply. -/
def getUserWithId (userId : Str) (next : LookupFor) (x : Proc) : Proc :=
  x.issue (.lookupKeys userId next)

/-- `getUserWithRedis` (online-users.js:137). -/
def getUserWithRedis (res : List (Str × Str)) (x : Proc) : User :=
  match x.getUserWithSocket (fieldOf res DBModelKeys.SocketIdKey) with
  | some user => user
  | none => createUserWithRedis x.nextRef res

/-- Object identities are used once. -/
def newRef (x : Proc) : Proc := { x with nextRef := x.nextRef + 1 }

/-- `user.noticeId++`. -/
def bumpNotice (user : User) (x : Proc) : Proc :=
  { x with noticeId := fun r => if r = user.ref then x.noticeId r + 1 else x.noticeId r }

/-! ### Sending a notice -/

/-- `BaseNotice.send` (base-notice.js:36). A `null` websocket and one that is
not open both throw, and the user is logged out. -/
def noticeSend (id : ℕ) (notice : Notice) (user : User) (x : Proc) : Proc :=
  if user.websocket then
    match x.wsSend user.socketId (.notice id notice none) with
    | some y => y
    | none => x.logout user
  else x.logout user

def emit (packet : Packet) (x : Proc) : Proc := { x with outbox := x.outbox ++ [packet] }

/-- One turn of the loop in `NoticeSender.send` (notice-sender.js:24-55). -/
def sendOne (p : Pid) (notice : Notice) (user : User) (x : Proc) : Proc :=
  if user.appInfo = appInfo p then
    (x.bumpNotice user).noticeSend (x.noticeId user.ref) notice user
  else x.emit ⟨user.appInfo, user.socketId, notice⟩

def sendAll (p : Pid) (notice : Notice) (userList : List User) (x : Proc) : Proc :=
  userList.foldl (fun y user => y.sendOne p notice user) x

/-- `new NoticeSender().send(userId, notice)` without awaiting it. -/
def senderSend (userId : Str) (notice : Notice) (x : Proc) : Proc :=
  x.getUserWithId userId (.notice notice .nobody)

/-- The second half of `LoginHandler.handle`'s lookup (login-handler.js:48). -/
def kickOld (userList : List User) (x : Proc) : Proc :=
  userList.foldl (fun y user => if user.websocket then y.wsClose user.socketId else y) x

/-! ### What a lookup resolves to -/

/-- Go on once `NoticeSender.send` has resolved (login-handler.js:46). -/
def afterSend : AfterSend → Proc → Proc
  | .nobody, x => x
  | .login l, x => x.getUserWithId l.user.userId (.loginKick l)

/-- `getUserWithId(userId).then(userList => ...)`. -/
def lookupDone (p : Pid) (next : LookupFor) (userList : List User) (x : Proc) : Proc :=
  match next with
  | .notice notice after => (x.sendAll p notice userList).afterSend after
  | .loginKick l => (x.kickOld userList).issue (.loginSet l)
  | .sendMsg user msg =>
    userList.foldl (fun y des => y.senderSend des.userId (sendMsgNotice user.userId msg)) x

/-- The loop over the keys found (online-users.js:78). -/
def lookupLoop (p : Pid) (next : LookupFor) (res : List Str) (userList : List User)
    (x : Proc) : Proc :=
  match res with
  | [] => x.lookupDone p next userList
  | key :: rest => x.issue (.lookupHash key rest userList next)

/-- Callback of `KEYS` (online-users.js:75): an error leaves the list empty. -/
def onLookupKeys (p : Pid) (next : LookupFor) (r : Store.Reply) (x : Proc) : Proc :=
  match r with
  | .array res => x.lookupLoop p next res []
  | _ => x.lookupDone p next []

/-- Callback of `HGETALL` (online-users.js:81): without a hash the awaited
promise is never resolved. -/
def onLookupHash (p : Pid) (next : LookupFor) (rest : List Str) (userList : List User)
    (r : Store.Reply) (x : Proc) : Proc :=
  match r with
  | .hash res => x.newRef.lookupLoop p next rest (userList ++ [x.getUserWithRedis res])
  | _ => x

end Proc

end NodeServer

import NodeServer.Model.OnlineUsers

/-! # `RoomManager` (`room.js`)

The callbacks of the room operations. `resolve` is the continuation of the
operation's promise; it receives the `err` of the result, `none` for `null`. A
callback that reads `user.userId` of an undefined user throws before it does
anything else, and its promise stays pending. -/

namespace NodeServer

def roomNotExist : Str := "live room is not exist.".toList

/-- A number the client library reads from an integer reply: the nearest double
(ties to even), exact below `2^53`. -/
def parseInt (n : ℕ) : ℕ :=
  let ulp := 2 ^ (Nat.log2 n - 52)
  let low := n - n % ulp
  if 2 * (n % ulp) < ulp then low
  else if 2 * (n % ulp) = ulp then (if (low / ulp) % 2 = 0 then low else low + ulp)
  else low + ulp

theorem parseInt_exact (n : ℕ) (h : n < 2 ^ 53) : parseInt n = n := by
  have hlog : Nat.log2 n - 52 = 0 := by
    by_cases hn : n = 0
    · subst hn
      rfl
    · have hlt := (Nat.log2_lt hn).mpr h
      omega
  simp [parseInt, hlog, Nat.mod_one]

namespace Proc

/-- The fan-out loops: one `NoticeSender.send` for each member but `user`. -/
def notifyOthers (user : User) (notice : Notice) (members : List Str) (x : Proc) : Proc :=
  members.foldl (fun y toUserId =>
    if toUserId ≠ user.userId then y.senderSend toUserId notice else y) x

/-- The fan-out loops without that test. -/
def notifyAll (notice : Notice) (members : List Str) (x : Proc) : Proc :=
  members.foldl (fun y toUserId => y.senderSend toUserId notice) x

variable (resolve : Option Str → Proc → Proc)

/-! ### `addRoom` (room.js:64) -/

def addRoom (user : Option User) (h : Handler) (x : Proc) : Proc := x.issue (.addRoomIncr user h)

def onAddRoomIncr (user : Option User) (h : Handler) (r : Store.Reply) (x : Proc) : Proc :=
  match user, r with
  | none, _ => x
  | some _, .error err => resolve (some err) x
  | some _, .int res => x.issue (.addRoomSet (parseInt res) h)
  | some _, _ => x.issue (.addRoomSet 0 h)

def onAddRoomSet (r : Store.Reply) (x : Proc) : Proc :=
  match r with
  | .error err => resolve (some err) x
  | _ => resolve none x

/-! ### `delRoom` (room.js:99) -/

def delRoom (user : Option User) (roomId : JsVal) (h : Handler) (x : Proc) : Proc :=
  x.issue (.delRoomKeys user roomId h)

def onDelRoomKeys (user : Option User) (roomId : JsVal) (h : Handler) (r : Store.Reply)
    (x : Proc) : Proc :=
  match user, r with
  | none, _ => x
  | some _, .array (_ :: _) => x.issue (.delRoomExec roomId h)
  | some _, _ => resolve (some roomNotExist) x

/-- The queued callbacks run in order, then that of `exec`; the first one fans
the close notice out to the members `SMEMBERS` listed. -/
def onDelRoomExec (roomId : JsVal) (r : Store.Reply) (x : Proc) : Proc :=
  match r with
  | .error err => resolve (some err) x
  | .exec (.array res :: _) => resolve none (x.notifyAll (.roomClose roomId) res)
  | _ => resolve none x

/-! ### `broadcast` (room.js:166) -/

def broadcast (user : Option User) (roomId msg : JsVal) (h : Handler) (x : Proc) : Proc :=
  x.issue (.broadcastKeys user roomId msg h)

def onBroadcastKeys (user : Option User) (roomId msg : JsVal) (h : Handler) (r : Store.Reply)
    (x : Proc) : Proc :=
  match r, user with
  | .array (_ :: _), _ => x.issue (.broadcastMembers user roomId msg h)
  | _, none => x
  | _, some _ => resolve (some roomNotExist) x

def onBroadcastMembers (user : Option User) (msg : JsVal) (r : Store.Reply) (x : Proc) : Proc :=
  match user, r with
  | none, _ => x
  | some _, .error err => resolve (some err) x
  | some user, .array res => resolve none (x.notifyAll (sendMsgNotice user.userId msg) res)
  | some _, _ => resolve none x

/-! ### `getRoomList` (room.js:199) -/

def getRoomList (user : Option User) (h : Handler) (x : Proc) : Proc := x.issue (.roomListKeys user h)

variable (resolveList : List Str → Proc → Proc)

def roomListLoop (res : List Str) (roomList : List Str) (h : Handler) (x : Proc) : Proc :=
  match res with
  | [] => resolveList roomList x
  | key :: rest => x.issue (.roomListGet key rest roomList h)

/-- After an error of `KEYS` the loop reads `length` of an undefined reply. -/
def onRoomListKeys (user : Option User) (h : Handler) (r : Store.Reply) (x : Proc) : Proc :=
  match user, r with
  | some _, .array res => x.roomListLoop resolveList res [] h
  | _, _ => x

def onRoomListGet (rest roomList : List Str) (h : Handler) (r : Store.Reply) (x : Proc) : Proc :=
  match r with
  | .bulk res => x.roomListLoop resolveList rest (roomList ++ [res]) h
  | _ => x

/-! ### `addRoomUser` (room.js:227) -/

def addRoomUser (user : Option User) (roomId : JsVal) (h : Handler) (x : Proc) : Proc :=
  x.issue (.addRoomUserKeys user roomId h)

def onAddRoomUserKeys (user : Option User) (roomId : JsVal) (h : Handler) (r : Store.Reply)
    (x : Proc) : Proc :=
  match user, r with
  | none, _ => x
  | some _, .error err => resolve (some err) x
  | some user, .array (_ :: _) => x.issue (.addRoomUserMembers user roomId h)
  | some _, _ => resolve (some roomNotExist) x

/-- An error of `SMEMBERS` only drops the notices. -/
def onAddRoomUserMembers (user : User) (roomId : JsVal) (h : Handler) (r : Store.Reply)
    (x : Proc) : Proc :=
  match r with
  | .array res =>
    (x.notifyOthers user (.roomIn user.userId) res).issue (.addRoomUserAdd user roomId h)
  | _ => x.issue (.addRoomUserAdd user roomId h)

/-! ### `delRoomUser` (room.js:272) -/

def delRoomUser (user : Option User) (roomId : JsVal) (h : Option Handler) (x : Proc) : Proc :=
  x.issue (.delRoomUserMembers user roomId h)

def onDelRoomUserMembers (user : Option User) (roomId : JsVal) (h : Option Handler)
    (r : Store.Reply) (x : Proc) : Proc :=
  match user, r with
  | none, _ => x
  | some user, .array res =>
    (x.notifyOthers user (.roomOut user.userId) res).issue (.delRoomUserRem user roomId h)
  | some user, _ => x.issue (.delRoomUserRem user roomId h)

end Proc

end NodeServer

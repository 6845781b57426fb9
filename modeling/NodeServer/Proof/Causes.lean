import NodeServer.Proof.CloseNotices
import NodeServer.Proof.LoginOrder
import NodeServer.Proof.PrivateMessages
import NodeServer.Proof.RoomCheck

/-! # Where calls and notices come from

Every Redis call in flight, every packet on its way and every notice written to a
client is followed back to the request or the disconnection it comes from, and to the
states of Redis it was decided on. -/

namespace NodeServer

open DBModelKeys

/-! ### What a run has seen -/

section

variable (tr : List (World × Event))

/- A connection logged in as `u` has made the request; its room was `noted`. -/
def Said (route : Route) (u : Str) (noted : JsVal) (req : Request) : Prop :=
  ∃ a ∈ tr, ∃ p s now user, a.2 = .message p s req now ∧
    getRouterByName req.route = some (.handler route) ∧
    (a.1.procs p).userList.get s = some user ∧ user.userId = u ∧
    (a.1.procs p).ctxRoomId s = noted

/- A connection, logged in or not, has asked for a new room. -/
def CreateAsked : Prop :=
  ∃ a ∈ tr, ∃ p s req now, a.2 = .message p s req now ∧
    getRouterByName req.route = some (.handler .roomCreate)

/- `disconnect` has run for the connection of `user`; its room was `noted`. -/
def Left (user : User) (noted : JsVal) : Prop :=
  ∃ a ∈ tr, ∃ p i s, inputOf a.1 a.2 = some (p, i) ∧ Disconnects i (a.1.procs p) s ∧
    (a.1.procs p).userList.get s = some user ∧ (a.1.procs p).ctxRoomId s = noted

/- A notice could not be written to `user`, whom a lookup on `p` had found and whose
record names `p`. -/
def SendFailed (p : Pid) (user : User) : Prop :=
  ∃ a ∈ tr, ∃ i notice after userList, inputOf a.1 a.2 = some (p, i) ∧
    Resolves i (a.1.procs p) (.notice notice after) userList ∧ user ∈ userList ∧
    user.appInfo = appInfo p ∧ ¬ (a.1.procs p).Sendable user

/- The world was in such a state after what `past` says of the run. -/
def Since (past : List (World × Event) → Prop) (state : World → Prop) : Prop :=
  ∃ before a after, tr = before ++ a :: after ∧ past before ∧ state a.1

end

def RoomFound (room : JsVal) (w : World) : Prop :=
  ∃ k, w.db.get k ≠ none ∧ Glob.stringmatch (roomPattern room.text) k = true

/- Process `q`, looking up `u` for `next`, is about to read the record of `user`, which
is in Redis. -/
structure Reads (w : World) (q : Pid) (u : Str) (next : LookupFor) (user : User) : Prop where
  reading : ∃ rest found, (w.procs q).sent.head? = some (.lookupHash user.key rest found next)
  record : w.db.get user.key = some (.hash user.record)
  matched : Glob.stringmatch (userIdPattern u) user.key = true

section

variable (tr : List (World × Event))

def EnteringRoom (u : Str) (room : JsVal) : Prop :=
  Since tr (fun past => ∃ noted req, req.roomId = room ∧ Said past .roomIn u noted req)
    (RoomFound room)

def LeavingRoom (u : Str) (room : JsVal) : Prop :=
  (∃ noted req, req.roomId = room ∧ Said tr .roomOut u noted req) ∨
    ∃ user : User, user.userId = u ∧ Left tr user room

def ClosingRoom (room : JsVal) : Prop :=
  Since tr (fun past => ∃ u noted req, req.roomId = room ∧ Said past .roomClose u noted req)
    (RoomFound room)

def ChattingIn (u : Str) (room msg : JsVal) : Prop :=
  Since tr (fun past => ∃ req, req.msg = msg ∧ Said past .sendLiveChat u room req) (RoomFound room)

/- The counter stood below the number drawn for the room. -/
def Creating (n : ℕ) : Prop :=
  ∃ m, n = parseInt m ∧ Since tr (fun past => ∃ u noted req, Said past .roomCreate u noted req)
    fun w => m = maxId w.db + 1

/- After `cause`, a lookup of `u` on process `q` has read the record of login `l`; where a
login looks up, that is another one. -/
structure FoundBy (cause : List (World × Event) → Prop) (q : Pid) (u : Str) (next : LookupFor)
    (l : LoginReq) : Prop where
  read : Since tr (fun past => cause past ∧ LoginAsked past l.user.socketId l.user.userId ∧
    ∃ p, LoginWritten past p l) fun w => Reads w q u next l.user
  other : next.login ≠ some l

/- The user that process `p` takes for the one of login `l` when it has read its record:
whoever is logged in on the connection there, or else the one the record names. -/
def StandsFor (p : Pid) (l : LoginReq) (user : User) : Prop :=
  user.socketId = l.user.socketId ∧ (user.userId = l.user.userId ∨
    ∃ a ∈ tr, (a.1.procs p).userList.get l.user.socketId = some user)

/- Why a notice is sent to the sessions of `dest`, and who awaits that. -/
inductive NoticeCause (dest : Str) : Notice → AfterSend → Prop
  | kick (l : LoginReq) (named : l.user.userId = dest)
      (asked : LoginAsked tr l.user.socketId dest) : NoticeCause dest (.kick dest) (.login l)
  | roomIn (u : Str) (room : JsVal) (other : dest ≠ u)
      (member : Since tr (fun past => EnteringRoom past u room) fun w => dest ∈ members w.db room.text) :
      NoticeCause dest (.roomIn u) .nobody
  | roomOut (u : Str) (room : JsVal) (other : dest ≠ u)
      (member : Since tr (fun past => LeavingRoom past u room) fun w => dest ∈ members w.db room.text) :
      NoticeCause dest (.roomOut u) .nobody
  | roomClose (room : JsVal)
      (member : Since tr (fun past => ClosingRoom past room) fun w => dest ∈ members w.db room.text) :
      NoticeCause dest (.roomClose room) .nobody
  | chat (u : Str) (room msg : JsVal) (member : Since tr (fun past => ChattingIn past u room msg)
        fun w => dest ∈ members w.db room.text) (notice : Notice) (text : notice = sendMsgNotice u msg) :
      NoticeCause dest notice .nobody
  -- whoever looking the addressee up finds is looked up once more
  | message (u : Str) (noted : JsVal) (req : Request) (toUserId : Str) (q : Pid) (sender : User)
      (l : LoginReq) (user : User) (given : req.toUserId = some toUserId)
      (found : FoundBy tr (fun past => Said past .sendMsg u noted req) q toUserId
        (.sendMsg sender req.msg) l)
      (taken : StandsFor tr q l user) (named : user.userId = dest)
      (notice : Notice) (text : notice = sendMsgNotice u req.msg) : NoticeCause dest notice .nobody

/- The record of a session is deleted because its connection is gone, or looks so. -/
def SessionLost (p : Pid) (user : User) : Prop :=
  (∃ noted, Left tr user noted) ∨ SendFailed tr p user

def NextCause (dest : Str) : LookupFor → Prop
  | .notice notice after => NoticeCause tr dest notice after
  | .loginKick l => l.user.userId = dest ∧ LoginAsked tr l.user.socketId dest
  | .sendMsg user msg => ∃ noted req, req.msg = msg ∧ req.toUserId = some dest ∧
      Said tr .sendMsg user.userId noted req

/- A lookup on `p` has read the record of login `l`. -/
def ReadFor (p : Pid) (next : LookupFor) (l : LoginReq) : Prop :=
  ∃ dest, FoundBy tr (fun past => NextCause past dest next) p dest next l

def FoundFor (p : Pid) (next : LookupFor) (user : User) : Prop :=
  ∃ l, ReadFor tr p next l ∧ StandsFor tr p l user

/- Why `p` has a call in flight. -/
def CallCause (p : Pid) : Call → Prop
  | .lookupKeys dest next => NextCause tr dest next
  | .lookupHash key rest found next => (∃ dest, NextCause tr dest next ∧
      ∀ k ∈ key :: rest, Glob.stringmatch (userIdPattern dest) k = true) ∧
      ∀ user ∈ found, FoundFor tr p next user
  | .loginSet _ => True
  | .logoutDel user => SessionLost tr p user
  | .addRoomIncr user _ => CreateAsked tr ∧
      ∀ u, user = some u → ∃ noted req, Said tr .roomCreate u.userId noted req
  | .addRoomSet n _ => Creating tr n
  | .delRoomKeys user room _ =>
    ∀ u, user = some u → ∃ noted req, req.roomId = room ∧ Said tr .roomClose u.userId noted req
  | .delRoomExec room _ => ClosingRoom tr room
  | .broadcastKeys user room msg _ =>
    ∀ u, user = some u → ∃ req, req.msg = msg ∧ Said tr .sendLiveChat u.userId room req
  | .broadcastMembers user room msg _ => ∀ u, user = some u → ChattingIn tr u.userId room msg
  | .roomListKeys _ _ | .roomListGet _ _ _ _ => True
  | .addRoomUserKeys user room _ =>
    ∀ u, user = some u → ∃ noted req, req.roomId = room ∧ Said tr .roomIn u.userId noted req
  | .addRoomUserMembers user room _ | .addRoomUserAdd user room _ => EnteringRoom tr user.userId room
  | .delRoomUserMembers user room _ => ∀ u, user = some u → LeavingRoom tr u.userId room
  | .delRoomUserRem user room _ => LeavingRoom tr user.userId room

end

/- The room whose members a call lists. -/
def Call.lists : Call → Option JsVal
  | .addRoomUserMembers _ room _ | .delRoomUserMembers _ room _ => some room
  | .broadcastMembers _ room _ _ | .delRoomExec room _ => some room
  | _ => none

def listedMembers : Store.Reply → List Str
  | .array res => res
  | .exec (.array res :: _) => res
  | _ => []

/- What a reply still to be handled says of the state in which Redis gave it. -/
structure ReplyCause (tr : List (World × Event)) (p : Pid) (c : Call) (r : Store.Reply) : Prop where
  keys : ∀ dest next keys, c = .lookupKeys dest next → r = .array keys →
    ∀ k ∈ keys, Glob.stringmatch (userIdPattern dest) k = true
  read : ∀ key rest found next res, c = .lookupHash key rest found next → r = .hash res →
    ∃ l, ReadFor tr p next l ∧ res = l.user.record
  found : ∀ user room k ks, IsCheck user room c → r = .array (k :: ks) →
    Since tr (fun past => CallCause past p c) (RoomFound room)
  listed : ∀ room, c.lists = some room → ∀ m ∈ listedMembers r,
    Since tr (fun past => CallCause past p c) fun w => m ∈ members w.db room.text
  drawn : ∀ user h, c = .addRoomIncr user h → (∃ err, r = .error err) ∨
    ∃ m, r = .int m ∧ Since tr (fun past => CallCause past p c) fun w => m = maxId w.db + 1

/- A notice that process `q` has sent to connection `s`. -/
def NoticeTraced (tr : List (World × Event)) (q : Pid) (s : Str) (notice : Notice) : Prop :=
  ∃ dest after l, l.user.socketId = s ∧
    FoundBy tr (fun past => NoticeCause past dest notice after) q dest (.notice notice after) l

structure Caused (tr : List (World × Event)) (w : World) : Prop where
  calls : ∀ p, ∀ c ∈ (w.procs p).calls, CallCause tr p c
  replies : ∀ p c r, (c, r) ∈ (w.procs p).answered → ReplyCause tr p c r
  packets : ∀ q, ∀ packet ∈ (w.procs q).outbox, NoticeTraced tr q packet.socketId packet.notice
  frames : ∀ p s id notice dest, .notice id notice dest ∈ (w.procs p).noticed s →
    ∃ q, NoticeTraced tr q s notice

/-! ### A longer run has seen as much -/

section

variable {tr : List (World × Event)} (tr' : List (World × Event))

theorem Said.append {route : Route} {u : Str} {noted : JsVal} {req : Request}
    (h : Said tr route u noted req) : Said (tr ++ tr') route u noted req := by
  obtain ⟨a, ha, hrest⟩ := h
  exact ⟨a, List.mem_append_left _ ha, hrest⟩

theorem CreateAsked.append (h : CreateAsked tr) : CreateAsked (tr ++ tr') := by
  obtain ⟨a, ha, hrest⟩ := h
  exact ⟨a, List.mem_append_left _ ha, hrest⟩

theorem Left.append {user : User} {noted : JsVal} (h : Left tr user noted) :
    Left (tr ++ tr') user noted := by
  obtain ⟨a, ha, hrest⟩ := h
  exact ⟨a, List.mem_append_left _ ha, hrest⟩

theorem SendFailed.append {p : Pid} {user : User} (h : SendFailed tr p user) :
    SendFailed (tr ++ tr') p user := by
  obtain ⟨a, ha, hrest⟩ := h
  exact ⟨a, List.mem_append_left _ ha, hrest⟩

theorem Since.append {past : List (World × Event) → Prop} {state : World → Prop}
    (h : Since tr past state) : Since (tr ++ tr') past state := by
  obtain ⟨before, a, after, rfl, hpast, hstate⟩ := h
  exact ⟨before, a, after ++ tr', by simp, hpast, hstate⟩

theorem Since.now {w : World} {past : List (World × Event) → Prop} {state : World → Prop}
    (hpast : past tr) (hstate : state w) (e : Event) : Since (tr ++ [(w, e)]) past state :=
  ⟨tr, (w, e), [], rfl, hpast, hstate⟩

theorem Since.imp {past past' : List (World × Event) → Prop} {state : World → Prop}
    (h : Since tr past state) (himp : ∀ before, past before → past' before) :
    Since tr past' state := by
  obtain ⟨before, a, after, rfl, hpast, hstate⟩ := h
  exact ⟨before, a, after, rfl, himp before hpast, hstate⟩

theorem EnteringRoom.append {u : Str} {room : JsVal} (h : EnteringRoom tr u room) :
    EnteringRoom (tr ++ tr') u room := Since.append tr' h

theorem LeavingRoom.append {u : Str} {room : JsVal} (h : LeavingRoom tr u room) :
    LeavingRoom (tr ++ tr') u room := by
  rcases h with ⟨noted, req, hroom, h⟩ | ⟨user, hu, h⟩
  · exact Or.inl ⟨noted, req, hroom, h.append tr'⟩
  · exact Or.inr ⟨user, hu, h.append tr'⟩

theorem ClosingRoom.append {room : JsVal} (h : ClosingRoom tr room) :
    ClosingRoom (tr ++ tr') room := Since.append tr' h

theorem ChattingIn.append {u : Str} {room msg : JsVal} (h : ChattingIn tr u room msg) :
    ChattingIn (tr ++ tr') u room msg := Since.append tr' h

theorem Creating.append {n : ℕ} (h : Creating tr n) : Creating (tr ++ tr') n := by
  obtain ⟨m, hn, h⟩ := h
  exact ⟨m, hn, h.append tr'⟩

theorem FoundBy.append {cause : List (World × Event) → Prop} {q : Pid} {u : Str} {next : LookupFor}
    {l : LoginReq} (h : FoundBy tr cause q u next l) : FoundBy (tr ++ tr') cause q u next l :=
  ⟨h.read.append tr', h.other⟩

theorem StandsFor.append {p : Pid} {l : LoginReq} {user : User} (h : StandsFor tr p l user) :
    StandsFor (tr ++ tr') p l user := by
  refine ⟨h.1, ?_⟩
  rcases h.2 with hu | ⟨a, ha, hu⟩
  · exact Or.inl hu
  · exact Or.inr ⟨a, List.mem_append_left _ ha, hu⟩

theorem NoticeCause.append {dest : Str} {notice : Notice} {after : AfterSend}
    (h : NoticeCause tr dest notice after) : NoticeCause (tr ++ tr') dest notice after := by
  cases h with
  | kick l named asked => exact .kick l named (asked.append tr')
  | roomIn u room other member => exact .roomIn u room other (member.append tr')
  | roomOut u room other member => exact .roomOut u room other (member.append tr')
  | roomClose room member => exact .roomClose room (member.append tr')
  | chat u room msg member notice text => exact .chat u room msg (member.append tr') _ text
  | message u noted req toUserId q sender l user given found taken named notice text =>
    exact .message u noted req toUserId q sender l user given (found.append tr') (taken.append tr')
      named _ text

theorem SessionLost.append {p : Pid} {user : User} (h : SessionLost tr p user) :
    SessionLost (tr ++ tr') p user := by
  rcases h with ⟨noted, h⟩ | h
  · exact Or.inl ⟨noted, h.append tr'⟩
  · exact Or.inr (h.append tr')

theorem NextCause.append {dest : Str} {next : LookupFor} (h : NextCause tr dest next) :
    NextCause (tr ++ tr') dest next := by
  cases next with
  | notice notice after => exact NoticeCause.append tr' h
  | loginKick l => exact ⟨h.1, h.2.append tr'⟩
  | sendMsg user msg =>
    obtain ⟨noted, req, hmsg, hto, h⟩ := h
    exact ⟨noted, req, hmsg, hto, h.append tr'⟩

theorem ReadFor.append {p : Pid} {next : LookupFor} {l : LoginReq} (h : ReadFor tr p next l) :
    ReadFor (tr ++ tr') p next l := by
  obtain ⟨dest, hfound⟩ := h
  exact ⟨dest, hfound.append tr'⟩

theorem FoundFor.append {p : Pid} {next : LookupFor} {user : User} (h : FoundFor tr p next user) :
    FoundFor (tr ++ tr') p next user := by
  obtain ⟨l, hread, htaken⟩ := h
  exact ⟨l, hread.append tr', htaken.append tr'⟩

theorem CallCause.append {p : Pid} {c : Call} (h : CallCause tr p c) :
    CallCause (tr ++ tr') p c := by
  cases c with
  | lookupKeys dest next => exact NextCause.append tr' h
  | lookupHash key rest found next =>
    obtain ⟨⟨dest, hnext, hkeys⟩, hfound⟩ := h
    exact ⟨⟨dest, hnext.append tr', hkeys⟩, fun user hu => (hfound user hu).append tr'⟩
  | loginSet l => trivial
  | logoutDel user => exact SessionLost.append tr' h
  | addRoomIncr user hd =>
    refine ⟨h.1.append tr', fun u hu => ?_⟩
    obtain ⟨noted, req, hsaid⟩ := h.2 u hu
    exact ⟨noted, req, hsaid.append tr'⟩
  | addRoomSet n hd => exact Creating.append tr' h
  | delRoomKeys user room hd =>
    intro u hu
    obtain ⟨noted, req, hroom, hsaid⟩ := h u hu
    exact ⟨noted, req, hroom, hsaid.append tr'⟩
  | delRoomExec room hd => exact ClosingRoom.append tr' h
  | broadcastKeys user room msg hd =>
    intro u hu
    obtain ⟨req, hmsg, hsaid⟩ := h u hu
    exact ⟨req, hmsg, hsaid.append tr'⟩
  | broadcastMembers user room msg hd => exact fun u hu => (h u hu).append tr'
  | roomListKeys | roomListGet => trivial
  | addRoomUserKeys user room hd =>
    intro u hu
    obtain ⟨noted, req, hroom, hsaid⟩ := h u hu
    exact ⟨noted, req, hroom, hsaid.append tr'⟩
  | addRoomUserMembers | addRoomUserAdd => exact EnteringRoom.append tr' h
  | delRoomUserMembers user room hd => exact fun u hu => (h u hu).append tr'
  | delRoomUserRem => exact LeavingRoom.append tr' h

theorem ReplyCause.append {p : Pid} {c : Call} {r : Store.Reply} (h : ReplyCause tr p c r) :
    ReplyCause (tr ++ tr') p c r where
  keys := h.keys
  read := by
    intro key rest found next res hc hr
    obtain ⟨l, hread, hres⟩ := h.read key rest found next res hc hr
    exact ⟨l, hread.append tr', hres⟩
  found := fun user room k ks hc hr => (h.found user room k ks hc hr).append tr'
  listed := fun room hc m hm => (h.listed room hc m hm).append tr'
  drawn := by
    intro user hd hc
    rcases h.drawn user hd hc with herr | ⟨m, hr, hsince⟩
    · exact Or.inl herr
    · exact Or.inr ⟨m, hr, hsince.append tr'⟩

theorem NoticeTraced.append {q : Pid} {s : Str} {notice : Notice} (h : NoticeTraced tr q s notice) :
    NoticeTraced (tr ++ tr') q s notice := by
  obtain ⟨dest, after, l, hs, hfound⟩ := h
  exact ⟨dest, after, l, hs, hfound.append tr'⟩

end

/-! ### Replies -/

section

variable {w v : World} {e : Event} {p : Pid} {c : Call} {r : Store.Reply} {tr : List (World × Event)}

theorem Executed.key_found (h : Executed w v e p c r) {pattern : Str} {keys : List Str}
    (hc : c.txn = .one (.keys pattern)) (hr : r = .array keys) :
    ∀ k ∈ keys, w.db.get k ≠ none ∧ Glob.stringmatch pattern k = true := by
  intro k hk
  rcases h.db with ⟨order, _, _, hrun⟩ | ⟨message, _, _, hfail⟩
  · rw [hc] at hrun
    obtain ⟨heq, _, hmem⟩ := Store.keys_inOrder order _ w.db r hrun
    rw [hr] at heq
    cases heq
    obtain ⟨hget, hmatch⟩ := (hmem k).mp hk
    exact ⟨Option.ne_none_iff_exists'.mpr hget, hmatch⟩
  · rw [hr] at hfail
    cases hfail

theorem Executed.member_listed (h : Executed w v e p c r) (hw : WF w) {room : JsVal}
    (hc : c.lists = some room) : ∀ m ∈ listedMembers r, m ∈ members w.db room.text := by
  intro m hm
  have hlist : Store.smembers (memberPattern room.text) w.db = .array (members w.db room.text) := by
    rcases hw.member_type room.text with hnone | ⟨ms, hset⟩
    · simp [Store.smembers, members, Store.membersOf, hnone]
    · simp [Store.smembers, members, Store.membersOf, hset]
  have one : c.txn = .one (.smembers (memberPattern room.text)) → m ∈ members w.db room.text := by
    intro htxn
    rcases h.db with ⟨order, _, _, hrun⟩ | ⟨message, _, _, rfl⟩
    · rw [htxn] at hrun
      have hrun : (Store.smembers (memberPattern room.text) w.db).inOrder order = some r := hrun
      rw [hlist] at hrun
      obtain ⟨rfl, hperm⟩ := Store.inOrder_array order _ r hrun
      exact hperm.mem_iff.mp hm
    · cases hm
  cases c with
  | addRoomUserMembers user room' hd => cases hc; exact one rfl
  | delRoomUserMembers user room' hd => cases hc; exact one rfl
  | broadcastMembers user room' msg hd => cases hc; exact one rfl
  | delRoomExec room' hd =>
    cases hc
    rcases h.db with ⟨order, he, _⟩ | ⟨message, _, _, rfl⟩
    · have hperm := (h.closed_reply hw he).2
      have hclosed : m ∈ closedMembers r := by
        cases r with
        | exec replies =>
          cases replies with
          | nil => cases hm
          | cons first rest =>
            cases first with
            | array res => exact hm
            | _ => cases hm
        | array res =>
          -- a transaction is not answered by a plain list
          rcases h.db with ⟨order', _, _, hrun⟩ | ⟨message, _, _, hfail⟩
          · simp [Call.txn, Store.Txn.run, Store.Reply.inOrder] at hrun
          · cases hfail
        | _ => cases hm
      exact hperm.mem_iff.mp hclosed
    · cases hm
  | _ => cases hc

/-- A record that is read was written by a login, and not by the one that reads it. -/
theorem Executed.read_cause {key : Str} {rest : List Str} {found : List User} {next : LookupFor}
    {res : List (Str × Str)} (h : Executed w v e p (.lookupHash key rest found next) (.hash res))
    (hw : WF w) (hg : Grounded tr w) (hcause : CallCause tr p (.lookupHash key rest found next)) :
    ∃ l, ReadFor (tr ++ [(w, e)]) p next l ∧ res = l.user.record := by
  obtain ⟨⟨dest, hnext, hkeys⟩, _⟩ := hcause
  obtain ⟨user, _, _, hkey, hres, hget⟩ := h.read hw
  obtain ⟨q, l, hkey', hvalue, hasked, hreg⟩ := hg.records user.key _ (IsOnlineKey.user _ _) hget
  have hreads : Reads w p dest next l.user := by
    refine ⟨⟨rest, found, ?_⟩, ?_, ?_⟩
    · rw [← hkey', ← hkey]
      exact h.sent_head
    · rw [← hkey', ← hvalue]
      exact hget
    · rw [← hkey', ← hkey]
      exact hkeys key (List.mem_cons_self ..)
  refine ⟨l, ⟨dest, Since.now ⟨hnext, hasked, q, hreg⟩ hreads e, ?_⟩, ?_⟩
  · intro hl
    exact hg.apart.waiting p q _ l h.mem_calls hl (by simp) hreg
  · rw [hres]
    exact Store.Value.hash.inj hvalue

theorem Executed.replyCause (h : Executed w v e p c r) (hw : WF w) (hg : Grounded tr w)
    (hcause : CallCause tr p c) : ReplyCause (tr ++ [(w, e)]) p c r where
  keys := by
    rintro dest next keys rfl hr k hk
    exact (h.key_found rfl hr k hk).2
  read := by
    rintro key rest found next res rfl rfl
    exact h.read_cause hw hg hcause
  found := by
    intro user room k ks hc hr
    exact Since.now hcause ⟨k, h.key_found hc.txn hr k (List.mem_cons_self ..)⟩ e
  listed := by
    intro room hc m hm
    exact Since.now hcause (h.member_listed hw hc m hm) e
  drawn := by
    intro user hd hc
    rcases h.maxId_cases hw with ⟨_, herr⟩ | ⟨user', hd', order, _, _, hr, _⟩
    · exact Or.inl (herr user hd hc)
    · exact Or.inr ⟨maxId w.db + 1, hr, tr, (w, e), [], rfl, hcause, rfl⟩

end

/-! ### Inputs -/

theorem fanOut_cause {tr : List (World × Event)} {p : Pid} {notice : Notice} {users : List Str}
    {c : Call} (hc : c ∈ fanOut notice users) (h : ∀ u ∈ users, NoticeCause tr u notice .nobody) :
    CallCause tr p c := by
  obtain ⟨u, hu, rfl⟩ := List.mem_map.mp hc
  exact h u hu

section

variable {w v : World} {e : Event} {p : Pid} {i : Input} {x : Proc} {tr : List (World × Event)}

theorem Handled.said (h : Handled w v e p i x) {s : Str} {req : Request} {now : ℕ} {route : Route}
    {user : User} (hi : i = .message s req now)
    (hroute : getRouterByName req.route = some (.handler route))
    (hu : x.userList.get s = some user) :
    Said (tr ++ [(w, e)]) route user.userId (x.ctxRoomId s) req := by
  have harr := h.arrives
  rw [hi] at harr
  rw [h.userList] at hu
  refine ⟨(w, e), by simp, p, s, now, user, harr.1, hroute, hu, rfl, ?_⟩
  simp only [Proc.ctxRoomId, h.conns]

theorem Handled.left (h : Handled w v e p i x) {s : Str} {user : User} (hd : Disconnects i x s)
    (hu : x.userList.get s = some user) : Left (tr ++ [(w, e)]) user (x.ctxRoomId s) := by
  have hd' : Disconnects i (w.procs p) s := by
    simpa only [Disconnects, Proc.isSettled, h.conns] using hd
  rw [h.userList] at hu
  refine ⟨(w, e), by simp, p, i, s, h.input, hd', hu, ?_⟩
  simp only [Proc.ctxRoomId, h.conns]

theorem Handled.leave_cause (h : Handled w v e p i x) {s : Str} {c : Call} (hd : Disconnects i x s)
    (hc : c ∈ x.leaveCalls s) : CallCause (tr ++ [(w, e)]) p c := by
  unfold Proc.leaveCalls at hc
  cases hu : x.userList.get s with
  | none =>
    rw [hu] at hc
    cases hc
  | some user =>
    have hleft : Left (tr ++ [(w, e)]) user (x.ctxRoomId s) := h.left hd hu
    have hlost : CallCause (tr ++ [(w, e)]) p (.logoutDel user) := Or.inl ⟨_, hleft⟩
    simp only [hu] at hc
    split at hc
    · rw [List.mem_singleton.mp hc]
      exact hlost
    · rcases List.mem_pair.mp hc with rfl | rfl
      · exact hlost
      · intro u hu
        cases hu
        exact Or.inr ⟨user, rfl, hleft⟩

theorem Handled.request_cause (h : Handled w v e p i x) {s : Str} {req : Request} {now : ℕ}
    {route : Route} {c : Call} (hi : i = .message s req now)
    (hroute : getRouterByName req.route = some (.handler route))
    (hc : c ∈ x.requestCalls p s req now route) : CallCause (tr ++ [(w, e)]) p c := by
  have hsaid : ∀ user, x.userList.get s = some user →
      Said (tr ++ [(w, e)]) route user.userId (x.ctxRoomId s) req :=
    fun user hu => h.said hi hroute hu
  have harr := h.arrives
  rw [hi] at harr
  cases route with
  | heartbeat => cases hc
  | logout => cases hc
  | login =>
    simp only [Proc.requestCalls] at hc
    split at hc
    · next userId hid _ =>
      rw [List.mem_singleton.mp hc]
      exact .kick _ rfl ⟨(w, e), by simp, p, req, now, harr.1, hroute, hid⟩
    · cases hc
  | roomList =>
    rw [List.mem_singleton.mp hc]
    trivial
  | roomCreate =>
    rw [List.mem_singleton.mp hc]
    exact ⟨⟨(w, e), by simp, p, s, req, now, harr.1, hroute⟩, fun u hu => ⟨_, req, hsaid u hu⟩⟩
  | roomClose =>
    rw [List.mem_singleton.mp hc]
    exact fun u hu => ⟨_, req, rfl, hsaid u hu⟩
  | roomIn =>
    rw [List.mem_singleton.mp hc]
    exact fun u hu => ⟨_, req, rfl, hsaid u hu⟩
  | roomOut =>
    simp only [Proc.requestCalls] at hc
    split at hc
    · cases hc
    · rw [List.mem_singleton.mp hc]
      exact fun u hu => Or.inl ⟨_, req, rfl, hsaid u hu⟩
  | sendLiveChat =>
    simp only [Proc.requestCalls] at hc
    split at hc
    · cases hc
    · rw [List.mem_singleton.mp hc]
      exact fun u hu => ⟨req, rfl, hsaid u hu⟩
  | sendMsg =>
    simp only [Proc.requestCalls] at hc
    split at hc
    · next user toUserId hu hto =>
      rw [List.mem_singleton.mp hc]
      exact ⟨_, req, rfl, hto, hsaid user hu⟩
    · cases hc

/-- A user that a lookup comes up with stands for a record it has read before. -/
theorem Caused.readUser (ht : Caused tr w) (hw : WF w) (h : Handled w v e p i x) {key : Str}
    {rest : List Str} {found : List User} {next : LookupFor} {res : List (Str × Str)}
    (hi : i = .reply (.lookupHash key rest found next) (.hash res)) :
    ∀ user ∈ found ++ [x.getUserWithRedis res],
      ∃ l, ReadFor tr p next l ∧ StandsFor (tr ++ [(w, e)]) p l user := by
  obtain ⟨_, hfound⟩ := ht.calls p _ (h.reply_call hi)
  obtain ⟨l, hread, hres⟩ := (ht.replies p _ _ (h.reply_mem _ _ hi)).read _ _ _ _ _ rfl rfl
  intro user hu
  rcases List.mem_append.mp hu with hu | hu
  · obtain ⟨l', hread', htaken⟩ := hfound user hu
    exact ⟨l', hread', htaken.append _⟩
  refine ⟨l, hread, ?_⟩
  rw [List.mem_singleton.mp hu, hres, getUserWithRedis_record]
  cases hget : x.userList.get l.user.socketId with
  | none => exact ⟨rfl, Or.inl rfl⟩
  | some known =>
    refine ⟨(h.local_user hw _ known hget).1, Or.inr ⟨(w, e), by simp, ?_⟩⟩
    rw [← h.userList]
    exact hget

theorem Caused.resolved (ht : Caused tr w) (hw : WF w) (h : Handled w v e p i x) {next : LookupFor}
    {userList : List User} (hr : Resolves i x next userList) :
    (∃ dest, NextCause tr dest next) ∧ ∀ user ∈ userList,
      ∃ l, ReadFor tr p next l ∧ StandsFor (tr ++ [(w, e)]) p l user := by
  rcases hr with ⟨dest, r, hi, _, rfl⟩ | ⟨key, found, res, hi, rfl⟩
  · exact ⟨⟨dest, ht.calls p _ (h.reply_call hi)⟩, List.forall_mem_nil _⟩
  · obtain ⟨⟨dest, hnext, _⟩, _⟩ := ht.calls p _ (h.reply_call hi)
    exact ⟨⟨dest, hnext⟩, ht.readUser hw h hi⟩

theorem Handled.resolved_on (h : Handled w v e p i x) {next : LookupFor} {userList : List User}
    (hr : Resolves i x next userList) : Resolves i (w.procs p) next userList := by
  rcases hr with hnone | ⟨key, found, res, hi, rfl⟩
  · exact Or.inl hnone
  · refine Or.inr ⟨key, found, res, hi, ?_⟩
    simp only [Proc.getUserWithRedis, Proc.getUserWithSocket, h.userList, h.nextRef]

theorem Caused.done_cause (ht : Caused tr w) (hw : WF w) (h : Handled w v e p i x)
    {next : LookupFor} {userList : List User} {c : Call} (hr : Resolves i x next userList)
    (hc : c ∈ x.doneCalls p userList next) : CallCause (tr ++ [(w, e)]) p c := by
  obtain ⟨⟨dest, hnext⟩, hfound⟩ := ht.resolved hw h hr
  cases next with
  | notice notice after =>
    rcases List.mem_append.mp hc with hc | hc
    · -- the notice could not be written to this user
      obtain ⟨user, hu, rfl⟩ := List.mem_map.mp hc
      obtain ⟨hmem, hfails⟩ := List.mem_filter.mp hu
      obtain ⟨happ, hsend⟩ := of_decide_eq_true hfails
      refine Or.inr ⟨(w, e), by simp, i, notice, after, userList, h.input, h.resolved_on hr, hmem,
        happ, ?_⟩
      rw [Proc.Sendable, Proc.ws, ← h.conns]
      exact hsend
    · cases after with
      | nobody => cases hc
      | login l =>
        rw [List.mem_singleton.mp hc]
        cases hnext with
        | kick _ named asked => exact ⟨rfl, named ▸ asked.append _⟩
  | loginKick l =>
    rw [List.mem_singleton.mp hc]
    trivial
  | sendMsg user msg =>
    refine fanOut_cause hc ?_
    intro u hu
    obtain ⟨des, hdes, rfl⟩ := List.mem_map.mp hu
    obtain ⟨l, ⟨toUserId, hread, hother⟩, htaken⟩ := hfound des hdes
    obtain ⟨before, a, after, rfl, ⟨⟨noted, req, rfl, hto, hsaid⟩, hreg⟩, hreads⟩ := hread
    have hsince : Since (before ++ a :: after) (fun past => Said past .sendMsg user.userId noted req ∧
        LoginAsked past l.user.socketId l.user.userId ∧ ∃ q, LoginWritten past q l)
        fun w => Reads w p toUserId (.sendMsg user req.msg) l.user :=
      ⟨before, a, after, rfl, ⟨hsaid, hreg⟩, hreads⟩
    exact .message _ noted req toUserId p user l des hto ⟨hsince.append _, hother⟩ htaken rfl _ rfl

/-- What a lookup goes on with. -/
theorem Caused.lookup_cause (ht : Caused tr w) (hw : WF w) (h : Handled w v e p i x) {c₀ c : Call}
    {r : Store.Reply} {next : LookupFor} (hi : i = .reply c₀ r) (hnext : c₀.lookup = some next)
    (hc : c ∈ x.replyCalls p c₀ r) : CallCause (tr ++ [(w, e)]) p c := by
  have hcall := ht.calls p c₀ (h.reply_call hi)
  have hreply := ht.replies p c₀ r (h.reply_mem c₀ r hi)
  cases c₀ with
  | lookupKeys dest next' =>
    cases r with
    | array keys =>
      cases keys with
      | nil => exact ht.done_cause hw h (Or.inl ⟨dest, _, hi, by simp, rfl⟩) hc
      | cons key rest =>
        rw [List.mem_singleton.mp hc]
        exact ⟨⟨dest, NextCause.append _ hcall, hreply.keys _ _ _ rfl rfl⟩, List.forall_mem_nil _⟩
    | _ => exact ht.done_cause hw h (Or.inl ⟨dest, _, hi, by simp, rfl⟩) hc
  | lookupHash key rest found next' =>
    cases r with
    | hash res =>
      cases rest with
      | nil => exact ht.done_cause hw h (Or.inr ⟨key, found, res, hi, rfl⟩) hc
      | cons key' rest =>
        obtain ⟨⟨dest, hcause, hkeys⟩, _⟩ := hcall
        rw [List.mem_singleton.mp hc]
        refine ⟨⟨dest, hcause.append _, fun k hk => hkeys k (List.mem_cons_of_mem _ hk)⟩, ?_⟩
        intro user hu
        obtain ⟨l, hread, htaken⟩ := ht.readUser hw h hi user hu
        exact ⟨l, hread.append _, htaken⟩
    | _ => cases hc
  | _ => cases hnext

/- The calls of a room list need no reason. -/
theorem listing_cause {c₀ c : Call} {r : Store.Reply} (hlists : c₀.listsRooms = true)
    (hc : c ∈ x.replyCalls p c₀ r) : CallCause (tr ++ [(w, e)]) p c := by
  cases c₀ with
  | roomListKeys user hd =>
    cases user with
    | none => cases hc
    | some user =>
      cases r with
      | array keys =>
        cases keys with
        | nil => cases hc
        | cons key rest =>
          rw [List.mem_singleton.mp hc]
          trivial
      | _ => cases hc
  | roomListGet key rest roomList hd =>
    cases r with
    | bulk res =>
      cases rest with
      | nil => cases hc
      | cons key' rest =>
        rw [List.mem_singleton.mp hc]
        trivial
    | _ =>
      cases rest with
      | _ => cases hc
  | _ => cases hlists

theorem Caused.reply_cause (ht : Caused tr w) (hw : WF w) (h : Handled w v e p i x) {c₀ c : Call}
    {r : Store.Reply} (hi : i = .reply c₀ r) (hc : c ∈ x.replyCalls p c₀ r) :
    CallCause (tr ++ [(w, e)]) p c := by
  have hcall := ht.calls p c₀ (h.reply_call hi)
  have hreply := ht.replies p c₀ r (h.reply_mem c₀ r hi)
  cases c₀ with
  | lookupKeys dest next => exact ht.lookup_cause hw h hi rfl hc
  | lookupHash key rest found next => exact ht.lookup_cause hw h hi rfl hc
  | loginSet l => cases hc
  | logoutDel user => cases hc
  | addRoomIncr user hd =>
    cases user with
    | none => cases hc
    | some user =>
      rcases hreply.drawn _ _ rfl with ⟨err, rfl⟩ | ⟨m, rfl, hsince⟩
      · cases hc
      · rw [List.mem_singleton.mp hc]
        exact ⟨m, rfl, (hsince.imp fun before hpast => ⟨user.userId, hpast.2 user rfl⟩).append _⟩
  | addRoomSet n hd => cases hc
  | delRoomKeys user room hd =>
    cases user with
    | none => cases hc
    | some user =>
      cases r with
      | array keys =>
        cases keys with
        | nil => cases hc
        | cons k ks =>
          rw [List.mem_singleton.mp hc]
          have hsince := hreply.found (some user) room k ks (.close hd) rfl
          exact (hsince.imp fun before hpast => ⟨user.userId, hpast user rfl⟩).append _
      | _ => cases hc
  | delRoomExec room hd =>
    cases r with
    | exec replies =>
      cases replies with
      | nil => cases hc
      | cons first rest =>
        cases first with
        | array res =>
          refine fanOut_cause hc fun m hm => ?_
          exact .roomClose room ((hreply.listed room rfl m hm).append _)
        | _ => cases hc
    | _ => cases hc
  | broadcastKeys user room msg hd =>
    cases r with
    | array keys =>
      cases keys with
      | nil => cases hc
      | cons k ks =>
        rw [List.mem_singleton.mp hc]
        intro u hu
        have hsince := hreply.found user room k ks (.chat msg hd) rfl
        exact (hsince.imp fun before hpast => hpast u hu).append _
    | _ => cases hc
  | broadcastMembers user room msg hd =>
    cases user with
    | none => cases hc
    | some user =>
      cases r with
      | array res =>
        refine fanOut_cause hc fun m hm => ?_
        have hsince := hreply.listed room rfl m hm
        exact .chat user.userId room msg
          ((hsince.imp fun before hpast => hpast user rfl).append _) _ rfl
      | _ => cases hc
  | roomListKeys user hd => exact listing_cause rfl hc
  | roomListGet key rest roomList hd => exact listing_cause rfl hc
  | addRoomUserKeys user room hd =>
    cases user with
    | none => cases hc
    | some user =>
      cases r with
      | array keys =>
        cases keys with
        | nil => cases hc
        | cons k ks =>
          rw [List.mem_singleton.mp hc]
          have hsince := hreply.found (some user) room k ks (.join hd) rfl
          exact (hsince.imp fun before hpast => hpast user rfl).append _
      | _ => cases hc
  | addRoomUserMembers user room hd =>
    cases r with
    | array res =>
      rcases List.mem_append.mp hc with hc | hc
      · refine fanOut_cause hc fun m hm => ?_
        obtain ⟨hm, hne⟩ := List.mem_filter.mp hm
        exact .roomIn user.userId room (of_decide_eq_true hne)
          ((hreply.listed room rfl m hm).append _)
      · rw [List.mem_singleton.mp hc]
        exact EnteringRoom.append _ hcall
    | _ =>
      rw [List.mem_singleton.mp hc]
      exact EnteringRoom.append _ hcall
  | addRoomUserAdd user room hd => cases hc
  | delRoomUserMembers user room hd =>
    cases user with
    | none => cases hc
    | some user =>
      cases r with
      | array res =>
        rcases List.mem_append.mp hc with hc | hc
        · refine fanOut_cause hc fun m hm => ?_
          obtain ⟨hm, hne⟩ := List.mem_filter.mp hm
          have hsince := hreply.listed room rfl m hm
          exact .roomOut user.userId room (of_decide_eq_true hne)
            ((hsince.imp fun before hpast => hpast user rfl).append _)
        · rw [List.mem_singleton.mp hc]
          exact LeavingRoom.append _ (hcall user rfl)
      | _ =>
        rw [List.mem_singleton.mp hc]
        exact LeavingRoom.append _ (hcall user rfl)
  | delRoomUserRem user room hd => cases hc

theorem Caused.issued_cause (ht : Caused tr w) (hw : WF w) (h : Handled w v e p i x) {c : Call} (hc : c ∈ x.issued p i) :
    CallCause (tr ++ [(w, e)]) p c := by
  cases i with
  | reply c₀ r => exact ht.reply_cause hw h rfl hc
  | message s req now =>
    simp only [Proc.issued] at hc
    split at hc
    · next route hroute => exact h.request_cause rfl hroute hc
    · cases hc
    · next hroute =>
      split at hc
      · cases hc
      · next hs => exact h.leave_cause (Or.inr (Or.inr ⟨req, now, rfl, hroute, by simpa using hs⟩)) hc
  | wsError s => exact h.leave_cause (Or.inr (Or.inl rfl)) hc
  | wsClose s => exact h.leave_cause (Or.inl rfl) hc
  | _ => cases hc

theorem noticesOf_cases {user : User} {id : ℕ} {notice : Notice} {fwd : Option Str}
    (ha : (user, .notice id notice fwd) ∈ x.noticesOf p i) :
    (∃ after userList, Resolves i x (.notice notice after) userList ∧ user ∈ userList) ∨
      ∃ packet, i = .packet packet ∧ notice = packet.notice ∧
        x.userList.get packet.socketId = some user := by
  unfold Proc.noticesOf at ha
  split at ha
  · next key found notice' after res =>
    have hcarries := noticesSent_carries ha
    have hsame : notice = notice' := by simpa [Frame.carries] using hcarries
    subst hsame
    exact Or.inl ⟨after, _, Or.inr ⟨key, found, res, rfl, rfl⟩, (noticesSent_mem ha).1⟩
  · next packet =>
    refine Or.inr ⟨packet, rfl, ?_⟩
    unfold Proc.packetNotices at ha
    split at ha
    · cases ha
    · next user' hget =>
      split at ha
      · cases List.mem_singleton.mp ha
        exact ⟨rfl, hget⟩
      · cases ha
  · cases ha

theorem Caused.sent_traced (ht : Caused tr w) (hw : WF w) (h : Handled w v e p i x) {notice : Notice}
    {after : AfterSend} {userList : List User} {user : User}
    (hr : Resolves i x (.notice notice after) userList) (hu : user ∈ userList) :
    NoticeTraced (tr ++ [(w, e)]) p user.socketId notice := by
  obtain ⟨l, ⟨dest, hread⟩, htaken⟩ := (ht.resolved hw h hr).2 user hu
  exact ⟨dest, after, l, htaken.1.symm, hread.append _⟩

/-- The notices an input writes are traced. -/
theorem Caused.written (ht : Caused tr w) (hw : WF w) (h : Handled w v e p i x) {user : User}
    {id : ℕ} {notice : Notice} {fwd : Option Str}
    (ha : (user, .notice id notice fwd) ∈ x.noticesOf p i) :
    ∃ q, NoticeTraced (tr ++ [(w, e)]) q user.socketId notice := by
  rcases noticesOf_cases ha with ⟨after, userList, hr, hu⟩ | ⟨packet, hi, rfl, hget⟩
  · exact ⟨p, ht.sent_traced hw h hr hu⟩
  · have harr := h.arrives
    rw [hi] at harr
    obtain ⟨_, q, n, _, hout⟩ := harr
    rw [(h.local_user hw _ user hget).1]
    exact ⟨q, (ht.packets q packet hout).append _⟩

theorem Caused.executed {c : Call} {r : Store.Reply} (ht : Caused tr w) (hg : Grounded tr w)
    (hw : WF w) (h : Executed w v e p c r) : Caused (tr ++ [(w, e)]) v where
  calls := by
    intro q c' hc'
    rw [h.calls q] at hc'
    exact (ht.calls q c' hc').append _
  replies := by
    intro q c' r' hm
    rcases h.mem_answered q c' r' hm with hm | ⟨rfl, rfl, rfl⟩
    · exact (ht.replies q c' r' hm).append _
    · exact h.replyCause hw hg (ht.calls q c' h.mem_calls)
  packets := by
    intro q packet hp
    have hout : (v.procs q).outbox = (w.procs q).outbox := by
      by_cases hq : q = p
      · subst hq
        exact h.outbox
      · rw [h.others q hq]
    rw [hout] at hp
    exact (ht.packets q packet hp).append _
  frames := by
    intro q s id notice fwd hf
    have hconns : (v.procs q).conns = (w.procs q).conns := by
      by_cases hq : q = p
      · subst hq
        exact h.conns
      · rw [h.others q hq]
    rw [Proc.noticed, hconns] at hf
    obtain ⟨q', htraced⟩ := ht.frames q s id notice fwd hf
    exact ⟨q', htraced.append _⟩

theorem Caused.handled (ht : Caused tr w) (hw : WF w) (h : Handled w v e p i x) : Caused (tr ++ [(w, e)]) v := by
  obtain ⟨outs, heff⟩ := h.effect_issued hw
  constructor
  · intro q c hc
    by_cases hq : q = p
    · subst hq
      obtain ⟨hbefore, hafter⟩ := h.calls_issued hw
      rw [hafter] at hc
      rcases List.mem_append.mp hc with hc | hc
      · exact (ht.calls q c (hbefore ▸ List.mem_append_right _ hc)).append _
      · exact ht.issued_cause hw h hc
    · obtain ⟨_, _, hsent, hans⟩ := h.other_conns q hq
      simp only [Proc.calls, hsent, hans] at hc
      exact (ht.calls q c hc).append _
  · intro q c r hm
    exact (ht.replies q c r (h.answered_sub hw q _ hm)).append _
  · intro q packet hp
    by_cases hq : q = p
    · subst hq
      rw [heff.outbox] at hp
      rcases List.mem_append.mp hp with hp | hp
      · exact (ht.packets q packet (h.outbox packet hp)).append _
      · obtain ⟨notice, after, userList, user, hr, hu, _, rfl⟩ := heff.forwards packet hp
        exact ht.sent_traced hw h hr hu
    · obtain ⟨outbox, hv, hsub⟩ := h.others q hq
      rw [hv] at hp
      exact (ht.packets q packet (hsub packet hp)).append _
  · intro q s id notice fwd hf
    by_cases hq : q = p
    · subst hq
      have hbefore : x.noticed s = (w.procs q).noticed s := by
        rw [Proc.noticed, h.conns]
        rfl
      rw [(h.quiet hw).2 s, hbefore] at hf
      rcases List.mem_append.mp hf with hf | hf
      · obtain ⟨q', htraced⟩ := ht.frames q s id notice fwd hf
        exact ⟨q', htraced.append _⟩
      · obtain ⟨⟨user, frame⟩, ha, rfl⟩ := List.mem_map.mp hf
        obtain ⟨ha, hs⟩ := List.mem_filter.mp ha
        rw [← of_decide_eq_true hs]
        exact ht.written hw h ha
    · have hconns := (h.other_conns q hq).1
      rw [Proc.noticed, hconns] at hf
      obtain ⟨q', htraced⟩ := ht.frames q s id notice fwd hf
      exact ⟨q', htraced.append _⟩

end

theorem Caused.initial : Caused [] World.initial where
  calls := by
    intro p c hc
    cases hc
  replies := by
    intro p c r hm
    cases hm
  packets := by
    intro q packet hp
    cases hp
  frames := by
    intro p s id notice fwd hf
    cases hf

theorem caused_path {tr : List (World × Event)} {w : World} (h : Run.Path step World.initial tr w) :
    Caused tr w := by
  induction h with
  | nil => exact Caused.initial
  | snoc e hpath hs ih =>
    obtain ⟨hw, hg⟩ := grounded_path hpath
    rcases step_cases _ _ e hs with ⟨q, c, r, hx⟩ | ⟨q, i, x, hx⟩
    · exact ih.executed hg hw hx
    · exact ih.handled hw hx

/-- Every notice in front of a client, on every run, comes from a request or a
disconnection, was addressed to the users its sender could address at a moment in
between, and stands on a connection whose record looking its addressee up has read. -/
theorem notices_traced {tr : List (World × Event)} {w : World} {p : Pid} {s : Str} {c : Conn}
    {id : ℕ} {notice : Notice} {fwd : Option Str} (h : Run.Path step World.initial tr w)
    (hc : (w.procs p).conns.get s = some c) (hf : .notice id notice fwd ∈ c.frames) :
    ∃ q, NoticeTraced tr q s notice := by
  apply (caused_path h).frames p s id notice fwd
  rw [Proc.noticed, hc]
  exact List.mem_filter.mpr ⟨hf, rfl⟩

/- B writes to the user of A, who is on another process. -/
def messagedTrace : List Event :=
  twoUsersTrace ++ .message 1 (socketIdOf ['B']) (sendMsgRequest ['u'] ['x']) 6 ::
    served 1 [uniquePattern ['u'] (socketIdOf ['A'])] ++ served 1 [] ++
    served 1 [uniquePattern ['u'] (socketIdOf ['A'])] ++ served 1 [] ++ [.deliver 1 0 0]

theorem private_message_traced :
    ∃ q, NoticeTraced (Run.steps step World.initial messagedTrace) q (socketIdOf ['A'])
      (sendMsgNotice ['v'] (.str ['x'])) := by
  obtain ⟨hrun, hframe⟩ : (Run.runs step World.initial messagedTrace).isSome = true ∧
      (((Run.ends step World.initial messagedTrace).procs 0).conns.get (socketIdOf ['A'])).any
        (fun c => c.frames.any (Frame.carries (sendMsgNotice ['v'] (.str ['x'])))) = true := by
    decide +kernel
  cases hc : ((Run.ends step World.initial messagedTrace).procs 0).conns.get (socketIdOf ['A']) with
  | none =>
    rw [hc] at hframe
    cases hframe
  | some c =>
    rw [hc] at hframe
    obtain ⟨frame, hmem, hcarries⟩ := List.any_eq_true.mp hframe
    cases frame with
    | respond resData => cases hcarries
    | notice id notice fwd =>
      rw [← of_decide_eq_true hcarries]
      exact notices_traced (Run.path_ends messagedTrace hrun) hc hmem

end NodeServer

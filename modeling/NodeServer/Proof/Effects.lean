import NodeServer.Proof.Frames

/-! # What one input makes a process do

`Origin` lists, for every Redis call, what makes a process issue it, with the
guards the code tested. `react_effect` is the single case analysis of the event
loop: every invariant below is derived from it, by asking where the calls it
mentions come from. -/

namespace NodeServer

/-- `websocket.send` to the user's connection does not throw. -/
def Proc.Sendable (x : Proc) (user : User) : Prop :=
  user.websocket = true ∧ x.ws user.socketId = some .opened

instance (x : Proc) (user : User) : Decidable (x.Sendable user) :=
  inferInstanceAs (Decidable (_ ∧ _))

/-- The input ends a lookup, which resolves with `userList`. -/
def Resolves (i : Input) (x : Proc) (next : LookupFor) (userList : List User) : Prop :=
  (∃ userId r, i = .reply (.lookupKeys userId next) r ∧ (∀ k ks, r ≠ .array (k :: ks)) ∧
    userList = []) ∨
  (∃ key found res, i = .reply (.lookupHash key [] found next) (.hash res) ∧
    userList = found ++ [x.getUserWithRedis res])

/-- The input makes `disconnect` run on a connection. -/
def Disconnects (i : Input) (x : Proc) (s : Str) : Prop :=
  i = .wsClose s ∨ i = .wsError s ∨
    ∃ req now, i = .message s req now ∧ getRouterByName req.route = none ∧ x.isSettled s = false

/-- The input logs a user out: by `disconnect`, or because a notice could not
be written to a user that looks local. -/
def LogsOut (p : Pid) (i : Input) (x : Proc) (user : User) : Prop :=
  (∃ s, Disconnects i x s ∧ x.userList.get s = some user) ∨
  (∃ notice after userList, Resolves i x (.notice notice after) userList ∧ user ∈ userList ∧
    user.appInfo = appInfo p ∧ ¬ x.Sendable user)

/-- The input forwards a notice to the process that owns a user. -/
def Forwards (p : Pid) (i : Input) (x : Proc) (packet : Packet) : Prop :=
  ∃ notice after userList user, Resolves i x (.notice notice after) userList ∧ user ∈ userList ∧
    user.appInfo ≠ appInfo p ∧ packet = ⟨user.appInfo, user.socketId, notice⟩

/-- A message dispatched to the handler of a route. -/
def Asks (i : Input) (s : Str) (route : Route) (req : Request) (now : ℕ) : Prop :=
  i = .message s req now ∧ getRouterByName req.route = some (.handler route)

def Call.listsRooms : Call → Bool
  | .roomListKeys _ _ | .roomListGet _ _ _ _ => true
  | _ => false

/-- Why a process issues a call. -/
inductive Origin (p : Pid) (i : Input) (x : Proc) : Call → Prop
  | loginStart (s : Str) (req : Request) (now : ℕ) (userId connectTime : Str)
      (asks : Asks i s .login req now) (given : req.userId = some userId)
      (fresh : x.userList.get s = none) :
      Origin p i x (.lookupKeys userId (.notice (.kick userId)
        (.login ⟨createUserWithLogin p x.nextRef userId s connectTime (natText now), req.id⟩)))
  | notify (userId : Str) (notice : Notice) :
      Origin p i x (.lookupKeys userId (.notice notice .nobody))
  | loginAgain (l : LoginReq) (notice : Notice) (userList : List User)
      (resolves : Resolves i x (.notice notice (.login l)) userList) :
      Origin p i x (.lookupKeys l.user.userId (.loginKick l))
  | sendMsg (s : Str) (req : Request) (now : ℕ) (user : User) (toUserId : Str)
      (asks : Asks i s .sendMsg req now) (logged : x.userList.get s = some user) :
      Origin p i x (.lookupKeys toUserId (.sendMsg user req.msg))
  | hashFirst (userId : Str) (next : LookupFor) (key : Str) (rest : List Str)
      (replied : i = .reply (.lookupKeys userId next) (.array (key :: rest))) :
      Origin p i x (.lookupHash key rest [] next)
  | hashNext (key₀ : Str) (next : LookupFor) (key : Str) (rest : List Str)
      (userList : List User) (res : List (Str × Str))
      (replied : i = .reply (.lookupHash key₀ (key :: rest) userList next) (.hash res)) :
      Origin p i x (.lookupHash key rest (userList ++ [x.getUserWithRedis res]) next)
  | loginSet (l : LoginReq) (userList : List User)
      (resolves : Resolves i x (.loginKick l) userList) : Origin p i x (.loginSet l)
  | logoutDel (user : User) (logsOut : LogsOut p i x user) : Origin p i x (.logoutDel user)
  | addRoomIncr (s : Str) (req : Request) (now : ℕ) (h : Handler)
      (asks : Asks i s .roomCreate req now) :
      Origin p i x (.addRoomIncr (x.userList.get s) h)
  | addRoomSet (user : User) (h : Handler) (res : ℕ)
      (replied : i = .reply (.addRoomIncr (some user) h) (.int res)) :
      Origin p i x (.addRoomSet (parseInt res) h)
  | addRoomNull (user : User) (h : Handler) (r : Store.Reply)
      (replied : i = .reply (.addRoomIncr (some user) h) r)
      (null : (∀ n, r ≠ .int n) ∧ ∀ err, r ≠ .error err) : Origin p i x (.addRoomSet 0 h)
  | delRoomKeys (s : Str) (req : Request) (now : ℕ) (h : Handler)
      (asks : Asks i s .roomClose req now) :
      Origin p i x (.delRoomKeys (x.userList.get s) req.roomId h)
  | delRoomExec (user : User) (roomId : JsVal) (h : Handler) (k : Str) (ks : List Str)
      (replied : i = .reply (.delRoomKeys (some user) roomId h) (.array (k :: ks))) :
      Origin p i x (.delRoomExec roomId h)
  | broadcastKeys (s : Str) (req : Request) (now : ℕ) (h : Handler)
      (asks : Asks i s .sendLiveChat req now) :
      Origin p i x (.broadcastKeys (x.userList.get s) (x.ctxRoomId s) req.msg h)
  | broadcastMembers (user : Option User) (roomId msg : JsVal) (h : Handler) (k : Str)
      (ks : List Str)
      (replied : i = .reply (.broadcastKeys user roomId msg h) (.array (k :: ks))) :
      Origin p i x (.broadcastMembers user roomId msg h)
  | roomListKeys (s : Str) (req : Request) (now : ℕ) (h : Handler)
      (asks : Asks i s .roomList req now) : Origin p i x (.roomListKeys (x.userList.get s) h)
  | roomListGet (key : Str) (rest roomList : List Str) (h : Handler) (c : Call) (r : Store.Reply)
      (replied : i = .reply c r) (lists : c.listsRooms = true) :
      Origin p i x (.roomListGet key rest roomList h)
  | addRoomUserKeys (s : Str) (req : Request) (now : ℕ) (h : Handler)
      (asks : Asks i s .roomIn req now) (hs : h.socketId = s) :
      Origin p i x (.addRoomUserKeys (x.userList.get s) req.roomId h)
  | addRoomUserMembers (user : User) (roomId : JsVal) (h : Handler) (k : Str) (ks : List Str)
      (replied : i = .reply (.addRoomUserKeys (some user) roomId h) (.array (k :: ks))) :
      Origin p i x (.addRoomUserMembers user roomId h)
  | addRoomUserAdd (user : User) (roomId : JsVal) (h : Handler) (r : Store.Reply)
      (replied : i = .reply (.addRoomUserMembers user roomId h) r) :
      Origin p i x (.addRoomUserAdd user roomId h)
  | roomOut (s : Str) (req : Request) (now : ℕ) (h : Handler)
      (asks : Asks i s .roomOut req now) (hs : h.socketId = s)
      (inRoom : (x.ctxRoomId s).isNull = false) :
      Origin p i x (.delRoomUserMembers (x.userList.get s) req.roomId (some h))
  | leave (s : Str) (user : User) (disconnects : Disconnects i x s)
      (logged : x.userList.get s = some user) (inRoom : (x.ctxRoomId s).isNull = false) :
      Origin p i x (.delRoomUserMembers (some user) (x.ctxRoomId s) none)
  | delRoomUserRem (user : User) (roomId : JsVal) (h : Option Handler) (r : Store.Reply)
      (replied : i = .reply (.delRoomUserMembers (some user) roomId h) r) :
      Origin p i x (.delRoomUserRem user roomId h)

def LookupFor.login : LookupFor → Option LoginReq
  | .notice _ (.login l) => some l
  | .loginKick l => some l
  | _ => none

/-- The login a call belongs to. -/
def Call.login : Call → Option LoginReq
  | .lookupKeys _ next => next.login
  | .lookupHash _ _ _ next => next.login
  | .loginSet l => some l
  | _ => none

/- Calls that continue an operation, as opposed to the lookups of a fan-out and
the `DEL`s of logouts: an input issues at most one of them. -/
def Call.chained : Call → Bool
  | .lookupKeys _ (.notice _ .nobody) => false
  | .logoutDel _ => false
  | _ => true

/-- The input makes a handler note or forget the room of a connection. -/
def NotesRoom (i : Input) (s : Str) (roomId : JsVal) : Prop :=
  (∃ user h r, i = .reply (.addRoomUserAdd user roomId h) r ∧ (∀ err, r ≠ .error err) ∧
    h.socketId = s) ∨
  (∃ user room h r, i = .reply (.delRoomUserRem user room (some h)) r ∧ (∀ err, r ≠ .error err) ∧
    h.socketId = s ∧ roomId = .undefined)

/-- What an input can do to one connection. -/
def ConnStep (i : Input) (s : Str) : Option Conn → Option Conn → Prop
  | none, none => True
  | none, some d => ∃ now, i = .connect s now ∧ d = ⟨.opened, natText now, none, .undefined, false, []⟩
  | some c, some d =>
    (c.ws.le d.ws ∨ (i = .wsClose s ∧ d.ws = .closed) ∨ (i = .wsError s ∧ d.ws = .closing)) ∧
    (c.settled = true → d.settled = true) ∧
    (d.roomId = c.roomId ∨ NotesRoom i s d.roomId)
  | some _, none => False

/-- The effect of an input on its process: `news` were issued, `outs` emitted. -/
structure Effect (p : Pid) (i : Input) (x y : Proc) (news : List Call) (outs : List Packet) :
    Prop where
  sent : y.sent = x.sent ++ news
  origin : ∀ c ∈ news, Origin p i x c
  chained : (news.filter Call.chained).length ≤ 1
  answered : y.answered = x.answered
  outbox : y.outbox = x.outbox ++ outs
  forwards : ∀ packet ∈ outs, Forwards p i x packet
  users : ∀ s, y.userList.get s = x.userList.get s ∨
    (y.userList.get s = none ∧ ∃ user, user.socketId = s ∧ .logoutDel user ∈ news) ∨
    (∃ l r, i = .reply (.loginSet l) r ∧ l.user.socketId = s ∧ y.userList.get s = some l.user)
  gone : ∀ user, .logoutDel user ∈ news → y.userList.get user.socketId = none
  conns : ∀ s, ConnStep i s (x.conns.get s) (y.conns.get s)

theorem Effect.atMostOne {p : Pid} {i : Input} {x y : Proc} {news : List Call} {outs : List Packet}
    (h : Effect p i x y news outs) (f : Call → Bool) (hf : ∀ c, f c = true → c.chained = true) :
    (news.filter f).length ≤ 1 := by
  have hle : news.countP f ≤ news.countP Call.chained := List.countP_mono_left fun c _ => hf c
  rw [List.countP_eq_length_filter, List.countP_eq_length_filter] at hle
  exact Nat.le_trans hle h.chained

theorem ConnStep.ofLe (i : Input) (s : Str) {a b : Option Conn} (h : Conn.LeOpt a b) :
    ConnStep i s a b := by
  cases a with
  | none =>
    cases b with
    | none => trivial
    | some d => cases h
  | some c =>
    cases b with
    | none => cases h
    | some d =>
      have h : c.Le d := h
      exact ⟨Or.inl h.ws, h.settled, Or.inl h.roomId⟩

theorem Effect.ofEmits (p : Pid) (i : Input) (x y : Proc) (news : List Call)
    (h : Emits news x y) (horigin : ∀ c ∈ news, Origin p i x c)
    (hchained : (news.filter Call.chained).length ≤ 1)
    (hkeep : ∀ user, .logoutDel user ∉ news) : Effect p i x y news [] where
  sent := h.sent
  origin := horigin
  chained := hchained
  answered := h.answered
  outbox := by rw [h.outbox, List.append_nil]
  forwards := by
    intro packet hp
    cases hp
  users := fun s => Or.inl (by rw [h.userList])
  gone := fun user hu => absurd hu (hkeep user)
  conns := fun s => ConnStep.ofLe i s (h.ctx s)

/-! ### Writing a notice to the users found -/

def Proc.fails (p : Pid) (x : Proc) (user : User) : Bool :=
  user.appInfo = appInfo p ∧ ¬ x.Sendable user

def isRemote (p : Pid) (user : User) : Bool := user.appInfo ≠ appInfo p

def packetFor (notice : Notice) (user : User) : Packet := ⟨user.appInfo, user.socketId, notice⟩

/-- What the loop of `NoticeSender.send` does: users it cannot write to are
logged out, users of other processes are forwarded to. -/
structure SendsAll (p : Pid) (notice : Notice) (userList : List User) (x y : Proc) : Prop where
  sent : y.sent = x.sent ++ (userList.filter (x.fails p)).map .logoutDel
  answered : y.answered = x.answered
  outbox : y.outbox = x.outbox ++ (userList.filter (isRemote p)).map (packetFor notice)
  userList : ∀ s, y.userList.get s =
    if s ∈ (userList.filter (x.fails p)).map User.socketId then none else x.userList.get s
  ctx : CtxLe x y
  ws : ∀ s, y.ws s = x.ws s

theorem wsSend_ws (x y : Proc) (s : Str) (frame : Frame) (h : x.wsSend s frame = some y) (t : Str) :
    y.ws t = x.ws t := by
  unfold Proc.wsSend at h
  split at h
  · cases h
    simp only [Proc.ws, Proc.setConn, Table.get_modify]
    by_cases ht : t = s
    · subst ht
      simp [Function.comp_def]
    · simp [ht]
  · cases h

theorem sendOne_spec (p : Pid) (notice : Notice) (user : User) (x : Proc) :
    SendsAll p notice [user] x (x.sendOne p notice user) := by
  unfold Proc.sendOne
  by_cases hl : user.appInfo = appInfo p
  · have hr : isRemote p user = false := by simp [isRemote, hl]
    simp only [hl, if_true]
    have out : ¬ x.Sendable user → SendsAll p notice [user] x ((x.bumpNotice user).logout user) := by
      intro hs
      have hf : x.fails p user = true := by simp [Proc.fails, hl, hs]
      refine ⟨?_, rfl, ?_, ?_, CtxLe.refl x, fun _ => rfl⟩
      · simp [Proc.logout, Proc.issue, Proc.delUser, Proc.bumpNotice, hf]
      · simp [Proc.logout, Proc.issue, Proc.delUser, Proc.bumpNotice, hr]
      · intro s
        simp [Proc.logout, Proc.issue, Proc.delUser, Proc.bumpNotice, Table.get_del, hf]
    unfold Proc.noticeSend
    by_cases hw : user.websocket = true
    · simp only [hw, if_true]
      cases hsend : (x.bumpNotice user).wsSend user.socketId
          (.notice (x.noticeId user.ref) notice none) with
      | some y =>
        have hopen : x.ws user.socketId = some .opened := by
          by_contra hn
          have hn' : ¬ (x.bumpNotice user).ws user.socketId = some .opened := hn
          simp [Proc.wsSend, hn'] at hsend
        have hf : x.fails p user = false := by simp [Proc.fails, hl, Proc.Sendable, hw, hopen]
        have he := Emits.wsSend (x.bumpNotice user) y _ _ hsend
        refine ⟨?_, he.answered, ?_, ?_, he.ctx, fun s => wsSend_ws (x.bumpNotice user) y _ _ hsend s⟩
        · simpa [hf, Proc.bumpNotice] using he.sent
        · simpa [hr, Proc.bumpNotice] using he.outbox
        · intro s
          simp [hf, he.userList, Proc.bumpNotice]
      | none =>
        apply out
        rintro ⟨_, hopen⟩
        have ho : (x.bumpNotice user).ws user.socketId = some .opened := hopen
        simp [Proc.wsSend, ho] at hsend
    · simp only [hw]
      exact out fun hs => hw hs.1
  · have hr : isRemote p user = true := by simp [isRemote, hl]
    have hf : x.fails p user = false := by simp [Proc.fails, hl]
    simp only [hl, if_false]
    refine ⟨?_, rfl, ?_, ?_, CtxLe.refl x, fun _ => rfl⟩
    · simp [Proc.emit, hf]
    · simp [Proc.emit, hr, packetFor]
    · intro s
      simp [Proc.emit, hf]

theorem sendAll_spec (p : Pid) (notice : Notice) (userList : List User) (x : Proc) :
    SendsAll p notice userList x (x.sendAll p notice userList) := by
  induction userList generalizing x with
  | nil => exact ⟨by simp [Proc.sendAll], rfl, by simp [Proc.sendAll], by simp [Proc.sendAll],
      CtxLe.refl x, fun _ => rfl⟩
  | cons user rest ih =>
    have h1 := sendOne_spec p notice user x
    have h2 := ih (x.sendOne p notice user)
    -- writing and logging out change no socket, so the same users fail later on
    have hsame : (x.sendOne p notice user).fails p = x.fails p := by
      funext u
      exact decide_eq_decide.mpr (by simp only [Proc.Sendable, h1.ws])
    rw [show x.sendAll p notice (user :: rest) = (x.sendOne p notice user).sendAll p notice rest
      from rfl]
    refine ⟨?_, h2.answered.trans h1.answered, ?_, ?_, h1.ctx.trans h2.ctx,
      fun s => (h2.ws s).trans (h1.ws s)⟩
    · rw [h2.sent, h1.sent, hsame, List.append_assoc, ← List.map_append, ← List.filter_append]
      rfl
    · rw [h2.outbox, h1.outbox, List.append_assoc, ← List.map_append, ← List.filter_append]
      rfl
    · intro s
      rw [h2.userList s, h1.userList s, hsame]
      by_cases hu : x.fails p user = true
      · rw [List.filter_cons_of_pos hu, List.filter_cons_of_pos hu]
        by_cases hs : s = user.socketId
        · simp [hs]
        · have hmem : s ∈ (user :: rest.filter (x.fails p)).map User.socketId ↔
              s ∈ (rest.filter (x.fails p)).map User.socketId := by
            simp [hs]
          simp only [List.filter_nil, List.map_cons, List.map_nil, List.mem_singleton, hs, if_false]
          exact if_congr hmem.symm rfl rfl
      · rw [List.filter_cons_of_neg hu, List.filter_cons_of_neg hu]
        simp

end NodeServer

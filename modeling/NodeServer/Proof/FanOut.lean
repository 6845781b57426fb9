import NodeServer.Proof.PrivateMessages
import NodeServer.Proof.RoomOps
import NodeServer.Proof.Connections

/-! # Notices to a list of users

A room operation starts one `NoticeSender.send` for each member of the room, and all
of them are under way at once. While no record goes out of date, what the lookups
and the forwarded packets still owe to a session and what has been written to it
always add up to the number of lookups made for its user. -/

namespace NodeServer

open DBModelKeys

/-! ### Users that are online -/

/- A user logged in on an open connection, with its record. -/
structure OnlineAt (w : World) (q : Pid) (user : User) : Prop where
  entry : (w.procs q).userList.get user.socketId = some user
  opened : (w.procs q).ws user.socketId = some .opened
  recorded : w.db.get user.key = some (.hash user.record)

/- Every record is that of such a user. -/
def AllOnline (w : World) : Prop :=
  ∀ k value, IsOnlineKey k → w.db.get k = some value → ∃ q user, OnlineAt w q user ∧ k = user.key

/- Looking `u` up finds the users with that id. -/
def FindsOnly (w : World) (u : Str) : Prop :=
  ∀ q user, OnlineAt w q user →
    (Glob.stringmatch (userIdPattern u) user.key = true ↔ user.userId = u)

/- The connection a record is for. -/
def World.socketOf (w : World) (k : Str) : Str :=
  match w.db.get k with
  | some (.hash fields) => fieldOf fields SocketIdKey
  | _ => []

section

variable {w : World} {p q : Pid} {user : User}

theorem OnlineAt.own (h : OnlineAt w q user) : w.own q user.socketId := by
  intro hnone
  have hopen := h.opened
  simp [Proc.ws, hnone] at hopen

theorem OnlineAt.localUser (h : OnlineAt w q user) (hw : WF w) : Local w.own q user :=
  (hw.users q _ user h.entry).2

theorem OnlineAt.socketOf (h : OnlineAt w q user) : w.socketOf user.key = user.socketId := by
  simp only [World.socketOf, h.recorded, fieldOf_record_socketId]

/-- A connection has one user. -/
theorem OnlineAt.unique {user' : User} (h : OnlineAt w q user) (h' : OnlineAt w p user') (hw : WF w)
    (hs : user'.socketId = user.socketId) : p = q ∧ user' = user := by
  have hq : p = q := by
    have hown := h'.own
    rw [hs] at hown
    exact hw.owner p q _ hown h.own
  subst hq
  refine ⟨rfl, ?_⟩
  have hentry := h'.entry
  rw [hs, h.entry] at hentry
  exact (Option.some.inj hentry).symm

end

/-! ### Calls, replies and packets of a fan-out -/

/- How many notices a call will send to the connection `t`. -/
def Call.owes (w : World) (t : Str) : Call → ℕ
  | .lookupKeys u (.notice _ _) => (w.recordsOf u).countP fun k => w.socketOf k = t
  | .lookupHash key rest found (.notice _ _) =>
    found.countP (fun user => user.socketId = t) + (key :: rest).countP fun k => w.socketOf k = t
  | _ => 0

section

variable (w : World) (p : Pid) (notice : Notice)

/- A user a lookup on `p` returns: the entry itself, or an image of one of another process. -/
def FanUser (user : User) : Prop :=
  ∃ q other, OnlineAt w q other ∧ user.socketId = other.socketId ∧ user.appInfo = appInfo q ∧
    (q = p → user = other)

inductive FanCall : Call → Prop
  | keys (u : Str) : FanCall (.lookupKeys u (.notice notice .nobody))
  | hash (key : Str) (rest : List Str) (found : List User)
      (keys : ∀ k ∈ key :: rest, IsOnlineKey k ∧ w.db.get k ≠ none)
      (users : ∀ user ∈ found, FanUser w p user) :
      FanCall (.lookupHash key rest found (.notice notice .nobody))
  -- what a join or a leave does beside
  | join (user : User) (roomId : JsVal) (h : Handler) : FanCall (.addRoomUserAdd user roomId h)
  | leave (user : User) (roomId : JsVal) (h : Option Handler) :
      FanCall (.delRoomUserRem user roomId h)

def FanReply : Call → Store.Reply → Prop
  | .lookupKeys u _, r => ∃ order, r = .array order ∧ order.Perm (w.recordsOf u)
  | .lookupHash key _ _ _, r => ∃ q user, OnlineAt w q user ∧ key = user.key ∧ r = .hash user.record
  | _, _ => True

structure FanPacket (packet : Packet) : Prop where
  notice : packet.notice = notice
  target : ∃ q user, q ≠ p ∧ OnlineAt w q user ∧ packet.url = appInfo q ∧
    packet.socketId = user.socketId

/- What the callback of such a call does, in its own process. -/
structure FanTurn (c : Call) (x y : Proc) (news : List Call) (outs : List Packet)
    (ws : List (User × Frame)) : Prop where
  sent : y.sent = x.sent ++ news
  answered : y.answered = x.answered
  outbox : y.outbox = x.outbox ++ outs
  sockets : SocketsKept x y
  users : ∀ t, y.userList.get t = x.userList.get t
  noticed : Notifies x y ws
  calls : ∀ d ∈ news, FanCall w p notice d
  packets : ∀ packet ∈ outs, FanPacket w p notice packet
  carries : ∀ a ∈ ws, a.2.carries notice = true
  balance : ∀ q user, OnlineAt w q user →
    (if q = p then (framesFor user.socketId ws).length else 0) +
        (news.map (Call.owes w user.socketId)).sum +
        outs.countP (fun packet => packet.socketId = user.socketId) =
      c.owes w user.socketId
  silent : ∀ t, (∀ user, OnlineAt w p user → user.socketId ≠ t) → framesFor t ws = []

end

section

variable {w : World} {p : Pid} {notice : Notice}

/- Callbacks that only issue calls. -/
theorem FanTurn.issues {c : Call} {x y : Proc} {news : List Call} (hsent : y.sent = x.sent ++ news)
    (hans : y.answered = x.answered) (hout : y.outbox = x.outbox) (hsockets : SocketsKept x y)
    (husers : y.userList = x.userList) (hnoticed : Notifies x y [])
    (hcalls : ∀ d ∈ news, FanCall w p notice d)
    (howes : ∀ t, (news.map (Call.owes w t)).sum = c.owes w t) :
    FanTurn w p notice c x y news [] [] where
  sent := hsent
  answered := hans
  outbox := by rw [hout, List.append_nil]
  sockets := hsockets
  users := fun t => by rw [husers]
  noticed := hnoticed
  calls := hcalls
  packets := List.forall_mem_nil _
  carries := List.forall_mem_nil _
  balance := by
    intro q user _
    have hnone : framesFor user.socketId [] = [] := rfl
    simp only [hnone, List.length_nil, ite_self, Nat.zero_add, List.countP_nil, Nat.add_zero]
    exact howes user.socketId
  silent := fun _ _ => rfl

theorem FanUser.writes_iff (hw : WF w) {user : User} (h : FanUser w p user) {x : Proc}
    (hws : ∀ t, x.ws t = (w.procs p).ws t) {q : Pid} {other : User} (ho : OnlineAt w q other)
    (hs : user.socketId = other.socketId) : x.Writes p user ↔ q = p := by
  obtain ⟨q', other', ho', hs', happ, heq⟩ := h
  obtain ⟨rfl, rfl⟩ := ho.unique ho' hw (hs'.symm.trans hs)
  constructor
  · rintro ⟨happ', _⟩
    exact appInfo_injective (happ.symm.trans happ')
  · rintro rfl
    obtain rfl := heq rfl
    exact ⟨happ, (ho.localUser hw).2, by rw [hws]; exact ho.opened⟩

theorem FanUser.remote_iff (hw : WF w) {user : User} (h : FanUser w p user) {q : Pid} {other : User}
    (ho : OnlineAt w q other) (hs : user.socketId = other.socketId) :
    isRemote p user = true ↔ q ≠ p := by
  obtain ⟨q', other', ho', hs', happ, _⟩ := h
  obtain ⟨rfl, rfl⟩ := ho.unique ho' hw (hs'.symm.trans hs)
  simp only [isRemote, happ, ne_eq, decide_eq_true_eq]
  constructor
  · rintro hne rfl
    exact hne rfl
  · intro hne heq
    exact hne (appInfo_injective heq)

theorem FanUser.not_fails (hw : WF w) {user : User} (h : FanUser w p user) {x : Proc}
    (hws : ∀ t, x.ws t = (w.procs p).ws t) : x.fails p user = false := by
  obtain ⟨q, other, ho, hs, happ, _⟩ := id h
  have hwrites := h.writes_iff hw hws ho hs
  simp only [Proc.fails, decide_eq_false_iff_not]
  rintro ⟨happ', hno⟩
  exact hno (hwrites.mpr (appInfo_injective (happ.symm.trans happ'))).2

/-- The notice goes to every user found: written by this process or forwarded. -/
theorem FanTurn.sendAll (hw : WF w) (notice : Notice) {userList : List User}
    (hall : ∀ user ∈ userList, FanUser w p user) (x : Proc)
    (hws : ∀ t, x.ws t = (w.procs p).ws t) {c : Call}
    (howes : ∀ t, userList.countP (fun user => user.socketId = t) = c.owes w t) :
    ∃ news outs ws, FanTurn w p notice c x (x.sendAll p notice userList) news outs ws := by
  have hspec := sendAll_spec p notice userList x
  have hfails : userList.filter (x.fails p) = [] := by
    rw [List.filter_eq_nil_iff]
    intro user hu
    simp [(hall user hu).not_fails hw hws]
  refine ⟨[], (userList.filter (isRemote p)).map (packetFor notice),
    Proc.noticesSent p notice userList x, ?_, hspec.answered, hspec.outbox, hspec.ws, ?_,
    Notifies.sendAll p notice userList x, List.forall_mem_nil _, ?_, ?_, ?_, ?_⟩
  · rw [hspec.sent, hfails]
    rfl
  · intro t
    rw [hspec.userList t, hfails]
    simp
  · intro packet hp
    obtain ⟨user, hu, rfl⟩ := List.mem_map.mp hp
    obtain ⟨hmem, hremote⟩ := List.mem_filter.mp hu
    obtain ⟨q, other, ho, hs, happ, _⟩ := hall user hmem
    exact ⟨rfl, q, other, ((hall user hmem).remote_iff hw ho hs).mp hremote, ho, happ, hs⟩
  · intro a ha
    exact noticesSent_carries ha
  · intro q other ho
    have hwritten : (framesFor other.socketId (Proc.noticesSent p notice userList x)).length =
        userList.countP fun user => decide (user.socketId = other.socketId) && decide (q = p) := by
      rw [noticesSent_length]
      apply List.countP_congr
      intro user hu
      by_cases ht : user.socketId = other.socketId
      · simp [ht, (hall user hu).writes_iff hw hws ho ht]
      · simp [ht]
    have hforwarded : ((userList.filter (isRemote p)).map (packetFor notice)).countP
          (fun packet => packet.socketId = other.socketId) =
        userList.countP fun user => decide (user.socketId = other.socketId) && decide (q ≠ p) := by
      rw [List.countP_map, List.countP_filter]
      apply List.countP_congr
      intro user hu
      by_cases ht : user.socketId = other.socketId
      · simp [packetFor, ht, (hall user hu).remote_iff hw ho ht]
      · simp [packetFor, ht]
    rw [hwritten, hforwarded, ← howes other.socketId]
    by_cases hq : q = p
    · simp [hq]
    · simp [hq]
  · intro t hno
    apply List.eq_nil_of_length_eq_zero
    rw [noticesSent_length]
    apply List.countP_eq_zero.mpr
    intro user hu hboth
    simp only [Bool.and_eq_true, decide_eq_true_eq] at hboth
    obtain ⟨rfl, hwrites⟩ := hboth
    obtain ⟨q, other, ho, hs, _, _⟩ := hall user hu
    obtain rfl := ((hall user hu).writes_iff hw hws ho hs).mp hwrites
    exact hno other ho hs.symm

/-- `KEYS` has been answered. -/
theorem FanTurn.keys (u : Str) {order : List Str} (horder : order.Perm (w.recordsOf u)) (x : Proc) :
    ∃ news, FanTurn w p notice (.lookupKeys u (.notice notice .nobody)) x
      (x.onReply p (.lookupKeys u (.notice notice .nobody)) (.array order)) news [] [] := by
  have howes : ∀ t, (Call.lookupKeys u (.notice notice .nobody)).owes w t =
      order.countP fun k => w.socketOf k = t := fun t => (horder.countP_eq _).symm
  cases order with
  | nil =>
    refine ⟨[], .issues (List.append_nil _).symm rfl rfl (socketsKept.refl x) rfl
      (Quiet.refl x).notifies (List.forall_mem_nil _) ?_⟩
    intro t
    rw [howes]
    rfl
  | cons key rest =>
    have hkeys : ∀ k ∈ key :: rest, IsOnlineKey k ∧ w.db.get k ≠ none := by
      intro k hk
      obtain ⟨hget, hmatch⟩ := mem_recordsOf.mp (horder.subset hk)
      exact ⟨userIdPattern_family u k hmatch, hget⟩
    refine ⟨[.lookupHash key rest [] (.notice notice .nobody)], .issues rfl rfl rfl
      (socketsKept.ofConns rfl) rfl (Notifies.ofConns rfl) ?_ ?_⟩
    · intro d hd
      rw [List.mem_singleton.mp hd]
      exact .hash key rest [] hkeys (List.forall_mem_nil _)
    · intro t
      rw [howes]
      simp [Call.owes]

/- The user read from a record. -/
theorem FanUser.read (hw : WF w) {x : Proc}
    (hx : ∀ t, x.userList.get t = (w.procs p).userList.get t) {q : Pid} {user : User}
    (ho : OnlineAt w q user) : FanUser w p (x.getUserWithRedis user.record) ∧
      (x.getUserWithRedis user.record).socketId = user.socketId := by
  have happ : user.appInfo = appInfo q := (ho.localUser hw).1.2
  rw [getUserWithRedis_record, hx]
  by_cases hq : q = p
  · subst hq
    rw [ho.entry]
    exact ⟨⟨q, user, ho, rfl, happ, fun _ => rfl⟩, rfl⟩
  · have hnone : (w.procs p).userList.get user.socketId = none := by
      by_contra hsome
      obtain ⟨user', hu'⟩ := Option.ne_none_iff_exists'.mp hsome
      obtain ⟨hs, hlocal⟩ := hw.users p _ user' hu'
      have hown : w.own p user.socketId := hs ▸ hlocal.1.1
      exact hq (hw.owner q p _ ho.own hown)
    rw [hnone]
    exact ⟨⟨q, user, ho, rfl, happ, fun hqp => absurd hqp hq⟩, rfl⟩

/-- `HGETALL` has been answered. -/
theorem FanTurn.hash (hw : WF w) {key : Str} {rest : List Str} {found : List User}
    (hkeys : ∀ k ∈ key :: rest, IsOnlineKey k ∧ w.db.get k ≠ none)
    (hfound : ∀ user ∈ found, FanUser w p user) {q : Pid} {user : User} (ho : OnlineAt w q user)
    (hkey : key = user.key) {x : Proc} (hws : ∀ t, x.ws t = (w.procs p).ws t)
    (hx : ∀ t, x.userList.get t = (w.procs p).userList.get t) :
    ∃ news outs ws, FanTurn w p notice (.lookupHash key rest found (.notice notice .nobody)) x
      (x.onReply p (.lookupHash key rest found (.notice notice .nobody)) (.hash user.record))
      news outs ws := by
  obtain ⟨hread, hsocket⟩ := FanUser.read hw hx ho
  have hall : ∀ user' ∈ found ++ [x.getUserWithRedis user.record], FanUser w p user' := by
    intro user' hu
    rcases List.mem_append.mp hu with hu | hu
    · exact hfound user' hu
    · rw [List.mem_singleton.mp hu]
      exact hread
  -- the record just read goes from the keys to the users found
  have hcount : ∀ t, (found ++ [x.getUserWithRedis user.record]).countP
        (fun user => user.socketId = t) + rest.countP (fun k => w.socketOf k = t) =
      (Call.lookupHash key rest found (.notice notice .nobody)).owes w t := by
    intro t
    simp only [Call.owes, List.countP_append, List.countP_nil, List.countP_cons, hsocket, hkey,
      ho.socketOf]
    omega
  cases rest with
  | nil =>
    obtain ⟨news, outs, ws, hturn⟩ := FanTurn.sendAll hw notice hall x.newRef hws hcount
    refine ⟨news, outs, ws, hturn.sent, hturn.answered, hturn.outbox, hturn.sockets, hturn.users,
      hturn.noticed, hturn.calls, hturn.packets, hturn.carries, hturn.balance, hturn.silent⟩
  | cons key' rest =>
    refine ⟨_, [], [], .issues rfl rfl rfl (socketsKept.ofConns rfl) rfl (Notifies.ofConns rfl)
      ?_ ?_⟩
    · intro d hd
      rw [List.mem_singleton.mp hd]
      exact .hash key' rest _ (fun k hk => hkeys k (List.mem_cons_of_mem _ hk)) hall
    · intro t
      rw [← hcount t]
      simp [Call.owes]

/- Nothing but the connections is touched. -/
def ConnsOnly (x y : Proc) : Prop := y = { x with conns := y.conns }

theorem ConnsOnly.trans {x y z : Proc} (h : ConnsOnly x y) (k : ConnsOnly y z) : ConnsOnly x z := by
  unfold ConnsOnly at h k ⊢
  rw [k, h]

theorem ConnsOnly.sendRespond (x : Proc) (h : Handler) : ConnsOnly x (x.sendRespond h false) := by
  unfold Proc.sendRespond Proc.wsSend
  split
  · rfl
  · rename_i y hy
    split at hy
    · rw [← Option.some.inj hy]
      rfl
    · cases hy

theorem ConnsOnly.roomResult (x : Proc) (h : Handler) (data : RespData) (err : Option Str) :
    ConnsOnly x (x.roomResult h data err) := by
  cases err with
  | _ => exact ConnsOnly.sendRespond x _

theorem ConnsOnly.roomInResult (x : Proc) (h : Handler) (roomId : JsVal) (err : Option Str) :
    ConnsOnly x (x.roomInResult h roomId err) := by
  cases err with
  | none =>
    have hnote : ConnsOnly x (x.setConn h.socketId fun c => { c with roomId := roomId }) := rfl
    exact hnote.trans (ConnsOnly.roomResult _ h (.room roomId) none)
  | some err => exact ConnsOnly.roomResult x h (.room roomId) (some err)

theorem ConnsOnly.roomOutResult (x : Proc) (h : Option Handler) (roomId : JsVal)
    (err : Option Str) : ConnsOnly x (x.roomOutResult h roomId err) := by
  cases h with
  | none => rfl
  | some h =>
    cases err with
    | none =>
      have hnote : ConnsOnly x (x.setConn h.socketId fun c => { c with roomId := .undefined }) := rfl
      exact hnote.trans (ConnsOnly.roomResult _ h (.room roomId) none)
    | some err => exact ConnsOnly.roomResult x h (.room roomId) (some err)

/-- The result of a join or a leave is noted and answered. -/
theorem FanTurn.result {c : Call} {x y : Proc} (h : ConnsOnly x y) (hsockets : SocketsKept x y)
    (hquiet : Quiet x y) (howes : ∀ t, c.owes w t = 0) : FanTurn w p notice c x y [] [] [] := by
  refine .issues ?_ ?_ ?_ hsockets ?_ hquiet.notifies (List.forall_mem_nil _) fun t => (howes t).symm
  · rw [h, List.append_nil]
  · rw [h]
  · rw [h]
  · rw [h]

/-- What the callback of any call of the fan-out does. -/
theorem FanCall.turn (hw : WF w) {c : Call} (hc : FanCall w p notice c) {r : Store.Reply}
    (hr : FanReply w c r) {x : Proc} (hws : ∀ t, x.ws t = (w.procs p).ws t)
    (hx : ∀ t, x.userList.get t = (w.procs p).userList.get t) :
    ∃ news outs ws, FanTurn w p notice c x (x.onReply p c r) news outs ws := by
  cases hc with
  | keys u =>
    obtain ⟨order, rfl, horder⟩ := hr
    obtain ⟨news, hturn⟩ := FanTurn.keys u horder x
    exact ⟨news, [], [], hturn⟩
  | hash key rest found keys users =>
    obtain ⟨q, user, ho, hkey, rfl⟩ := hr
    exact FanTurn.hash hw keys users ho hkey hws hx
  | join user roomId h =>
    refine ⟨[], [], [], ?_⟩
    have houtcome : ∃ err, x.onReply p (.addRoomUserAdd user roomId h) r =
        x.roomInResult h roomId err := by
      cases r with
      | error err => exact ⟨some err, rfl⟩
      | _ => exact ⟨none, rfl⟩
    obtain ⟨err, hy⟩ := houtcome
    rw [hy]
    exact .result (.roomInResult x h roomId err) (socketsKept.roomInResult x h roomId err)
      (.roomInResult x h roomId err) fun _ => rfl
  | leave user roomId h =>
    refine ⟨[], [], [], ?_⟩
    have houtcome : ∃ err, x.onReply p (.delRoomUserRem user roomId h) r =
        x.roomOutResult h roomId err := by
      cases r with
      | error err => exact ⟨some err, rfl⟩
      | _ => exact ⟨none, rfl⟩
    obtain ⟨err, hy⟩ := houtcome
    rw [hy]
    exact .result (.roomOutResult x h roomId err) (socketsKept.roomOutResult x h roomId err)
      (.roomOutResult x h roomId err) fun _ => rfl

end

/-! ### One step of the servers -/

/- The notices are being sent by process `p`, since `w`. -/
structure FanningOut (w : World) (p : Pid) (notice : Notice) (total : Str → ℕ) (v : World) : Prop where
  sockets : ∀ q t, (v.procs q).ws t = (w.procs q).ws t
  users : ∀ t, (v.procs p).userList.get t = (w.procs p).userList.get t
  others : ∀ q, q ≠ p → (v.procs q).userList = (w.procs q).userList ∧ (v.procs q).calls = [] ∧
    (v.procs q).outbox = []
  calls : ∀ c ∈ (v.procs p).calls, FanCall w p notice c
  replies : ∀ c r, (c, r) ∈ (v.procs p).answered → FanReply w c r
  packets : ∀ packet ∈ (v.procs p).outbox, FanPacket w p notice packet
  db : ∀ k, IsOnlineKey k → v.db.get k = w.db.get k
  balance : ∀ q user, OnlineAt w q user → ∃ n, Receives w v notice q user.socketId n ∧
    n + ((v.procs p).calls.map (Call.owes w user.socketId)).sum +
      (v.procs p).outbox.countP (fun packet => packet.socketId = user.socketId) =
    total user.socketId
  silent : ∀ q t, (∀ user, OnlineAt w q user → user.socketId ≠ t) → Receives w v notice q t 0

section

variable {w v z : World} {p : Pid} {notice : Notice} {total : Str → ℕ}

theorem FanCall.keeps_records {c : Call} (hc : FanCall w p notice c) (db : Store.Db) (k : Str)
    (hk : IsOnlineKey k) : (c.txn.run db).1.get k = db.get k := by
  rcases run_cases c db k with hsame | hwrites
  · exact hsame
  · cases hc with
    | keys u => cases hwrites
    | hash key rest found keys users => cases hwrites
    | join user roomId h =>
      cases hwrites with
      | join _ _ _ _ hkey => exact absurd hkey (hk.ne_member _)
    | leave user roomId h =>
      cases hwrites with
      | leave _ _ _ _ hkey => exact absurd hkey (hk.ne_member _)

/- What Redis answers to the calls of a fan-out. -/
theorem FanningOut.executed_reply {e : Event} {c : Call} {r : Store.Reply}
    (hf : FanningOut w p notice total v) (hall : AllOnline w) (h : Executed v z e p c r)
    (he : e.internal = true) : FanReply w c r ∧ ∀ k, IsOnlineKey k → z.db.get k = v.db.get k := by
  have hc := hf.calls c h.mem_calls
  rcases h.db with ⟨order, _, hdb, hrun⟩ | ⟨message, rfl, _⟩
  · refine ⟨?_, fun k hk => by rw [hdb]; exact hc.keeps_records v.db k hk⟩
    cases hc with
    | keys u =>
      obtain ⟨hr, hnodup, hmem⟩ := Store.keys_inOrder order _ v.db r hrun
      refine ⟨order, hr, (List.perm_ext_iff_of_nodup hnodup
        ((AList.keys_nodup w.db).filter _)).mpr fun k => ?_⟩
      -- the pattern matches online keys only, and those are as in `w`
      have hiff : k ∈ order ↔ k ∈ w.recordsOf u := by
        rw [hmem, mem_recordsOf, ← Option.ne_none_iff_exists']
        constructor
        · rintro ⟨hget, hmatch⟩
          exact ⟨hf.db k (userIdPattern_family u k hmatch) ▸ hget, hmatch⟩
        · rintro ⟨hget, hmatch⟩
          exact ⟨hf.db k (userIdPattern_family u k hmatch) ▸ hget, hmatch⟩
      exact hiff
    | hash key rest found keys users =>
      obtain ⟨hon, hget⟩ := keys key (List.mem_cons_self ..)
      obtain ⟨value, hvalue⟩ := Option.ne_none_iff_exists'.mp hget
      obtain ⟨q, user, ho, hkey⟩ := hall key value hon hvalue
      refine ⟨q, user, ho, hkey, ?_⟩
      have hrecord : v.db.get key = some (.hash user.record) := by
        rw [hf.db key hon, hkey]
        exact ho.recorded
      simp only [Call.txn, Store.Txn.run, Store.Cmd.run, Store.hgetall, hrecord] at hrun
      exact (Option.some.inj hrun).symm
    | join user roomId hd => trivial
    | leave user roomId hd => trivial
  · cases he

theorem FanningOut.executed {e : Event} {q : Pid} {c : Call} {r : Store.Reply}
    (hf : FanningOut w p notice total v) (hall : AllOnline w) (h : Executed v z e q c r)
    (he : e.internal = true) : FanningOut w p notice total z := by
  have hq : q = p := by
    by_contra hne
    have hmem := h.mem_calls
    rw [(hf.others q hne).2.1] at hmem
    cases hmem
  subst hq
  obtain ⟨hreply, hdb⟩ := hf.executed_reply hall h he
  have hnoticed : ∀ q' t, (z.procs q').noticed t = (v.procs q').noticed t := by
    intro q' t
    by_cases hq' : q' = q
    · subst hq'
      simp only [Proc.noticed, h.conns]
    · rw [h.others q' hq']
  constructor
  · intro q' t
    rw [h.ws q' t]
    exact hf.sockets q' t
  · intro t
    rw [h.userList]
    exact hf.users t
  · intro q' hq'
    rw [h.others q' hq']
    exact hf.others q' hq'
  · intro c' hc'
    rw [h.calls q] at hc'
    exact hf.calls c' hc'
  · intro c' r' hm
    rcases h.mem_answered q c' r' hm with hm | ⟨_, rfl, rfl⟩
    · exact hf.replies c' r' hm
    · exact hreply
  · intro packet hp
    rw [h.outbox] at hp
    exact hf.packets packet hp
  · intro k hk
    rw [hdb k hk]
    exact hf.db k hk
  · intro q' user ho
    obtain ⟨n, hrec, hsum⟩ := hf.balance q' user ho
    refine ⟨n, hrec.congr (hnoticed q' _), ?_⟩
    rw [h.calls q, h.outbox]
    exact hsum
  · intro q' t hno
    exact (hf.silent q' t hno).congr (hnoticed q' t)

/- The callback of the oldest call has run, and only its process has changed. -/
structure FanReplied (w : World) (p : Pid) (notice : Notice) (v z : World) (c : Call)
    (r : Store.Reply) (rest : List (Call × Store.Reply)) (news : List Call) (outs : List Packet)
    (ws : List (User × Frame)) : Prop where
  before : (v.procs p).answered = (c, r) :: rest
  turn : FanTurn w p notice c { v.procs p with answered := rest } (z.procs p) news outs ws
  other : ∀ q, q ≠ p → z.procs q = v.procs q
  db : z.db = v.db

theorem FanningOut.reply_turn {q : Pid} (hf : FanningOut w p notice total v) (hw : WF w)
    (hs : step v (.reply q) = some z) :
    ∃ c r rest news outs ws, FanReplied w p notice v z c r rest news outs ws := by
  obtain ⟨c, r, rest, hans, rfl⟩ := step_reply hs
  have hmem : c ∈ (v.procs q).calls := by
    rw [Proc.calls, hans]
    exact List.mem_cons_self ..
  have hq : q = p := by
    by_contra hne
    rw [(hf.others q hne).2.1] at hmem
    cases hmem
  subst hq
  obtain ⟨news, outs, ws, hturn⟩ := (hf.calls c hmem).turn hw
    (hf.replies c r (by rw [hans]; exact List.mem_cons_self ..))
    (x := { v.procs q with answered := rest }) (hf.sockets q) hf.users
  refine ⟨c, r, rest, news, outs, ws, hans, ?_, fun q' hq' => setProc_ne v q q' _ hq', rfl⟩
  rw [setProc_self]
  exact hturn

section

variable {c : Call} {r : Store.Reply} {rest : List (Call × Store.Reply)} {news : List Call}
  {outs : List Packet} {ws : List (User × Frame)}

theorem FanReplied.calls_before (h : FanReplied w p notice v z c r rest news outs ws) :
    (v.procs p).calls = c :: (rest.map Prod.fst ++ (v.procs p).sent) := by
  rw [Proc.calls, h.before]
  rfl

theorem FanReplied.calls_after (h : FanReplied w p notice v z c r rest news outs ws) :
    (z.procs p).calls = (rest.map Prod.fst ++ (v.procs p).sent) ++ news := by
  rw [Proc.calls, h.turn.answered, h.turn.sent, List.append_assoc]

/- What a callback writes or forwards is no longer owed. -/
theorem FanReplied.balance (h : FanReplied w p notice v z c r rest news outs ws)
    (hf : FanningOut w p notice total v) (q : Pid) (user : User) (ho : OnlineAt w q user) :
    ∃ n, Receives w z notice q user.socketId n ∧
      n + ((z.procs p).calls.map (Call.owes w user.socketId)).sum +
        (z.procs p).outbox.countP (fun packet => packet.socketId = user.socketId) =
      total user.socketId := by
  obtain ⟨n, hrec, hsum⟩ := hf.balance q user ho
  have hturn := h.turn.balance q user ho
  have hout : (z.procs p).outbox = (v.procs p).outbox ++ outs := h.turn.outbox
  rw [h.calls_before, List.map_cons, List.sum_cons, List.map_append, List.sum_append] at hsum
  rw [h.calls_after, hout, List.countP_append, List.map_append, List.sum_append,
    List.map_append, List.sum_append]
  by_cases hq : q = p
  · subst hq
    rw [if_pos rfl] at hturn
    refine ⟨n + (framesFor user.socketId ws).length,
      hrec.more (h.turn.noticed user.socketId) ?_, ?_⟩
    · intro frame hframe
      obtain ⟨a, ha, rfl⟩ := List.mem_map.mp hframe
      exact h.turn.carries a (List.mem_filter.mp ha).1
    · omega
  · rw [if_neg hq, Nat.zero_add] at hturn
    refine ⟨n, hrec.congr (by rw [h.other q hq]), ?_⟩
    omega

theorem FanningOut.replied (hf : FanningOut w p notice total v)
    (h : FanReplied w p notice v z c r rest news outs ws) : FanningOut w p notice total z := by
  constructor
  · intro q t
    by_cases hq : q = p
    · subst hq
      exact (h.turn.sockets t).trans (hf.sockets q t)
    · rw [h.other q hq]
      exact hf.sockets q t
  · intro t
    exact (h.turn.users t).trans (hf.users t)
  · intro q hq
    rw [h.other q hq]
    exact hf.others q hq
  · intro d hd
    rw [h.calls_after] at hd
    rcases List.mem_append.mp hd with hd | hd
    · exact hf.calls d (by rw [h.calls_before]; exact List.mem_cons_of_mem _ hd)
    · exact h.turn.calls d hd
  · intro d r' hd
    rw [h.turn.answered] at hd
    exact hf.replies d r' (by rw [h.before]; exact List.mem_cons_of_mem _ hd)
  · intro packet hp
    rw [h.turn.outbox] at hp
    rcases List.mem_append.mp hp with hp | hp
    · exact hf.packets packet hp
    · exact h.turn.packets packet hp
  · intro k hk
    rw [h.db]
    exact hf.db k hk
  · exact h.balance hf
  · intro q t hno
    have hold := hf.silent q t hno
    by_cases hq : q = p
    · subst hq
      have hnone := h.turn.silent t hno
      refine hold.congr ?_
      rw [h.turn.noticed t, hnone, List.append_nil]
      rfl
    · exact hold.congr (by rw [h.other q hq])

end

/-! ### Deliveries -/

section

variable {s : Pid} {packet : Packet}

/- What has been written is no longer on its way. -/
theorem FanningOut.passed_balance (hf : FanningOut w p notice total v) (hw : WF w)
    (h : Passed v z p s packet) (hs : s ≠ p) (hpacket : packet.notice = notice) {user : User}
    (hu : OnlineAt w s user) (hsocket : packet.socketId = user.socketId) (q : Pid) (other : User)
    (ho : OnlineAt w q other) :
    ∃ n, Receives w z notice q other.socketId n ∧
      n + ((z.procs p).calls.map (Call.owes w other.socketId)).sum +
        (z.procs p).outbox.countP (fun packet => packet.socketId = other.socketId) =
      total other.socketId := by
  obtain ⟨outbox, hsource, hperm⟩ := h.source
  obtain ⟨hcarries, hothers, hone, -⟩ :=
    packetNotices_frames hw packet (hf.others s hs).1 (hf.sockets s)
  obtain ⟨n, hrec, hsum⟩ := hf.balance q other ho
  have hcount := hperm.countP_eq (fun packet => packet.socketId = other.socketId)
  rw [List.countP_cons] at hcount
  have hcalls : (z.procs p).calls = (v.procs p).calls := by
    rw [hsource]
    rfl
  have hout : (z.procs p).outbox = outbox := by rw [hsource]
  rw [hcalls, hout]
  by_cases ht : other.socketId = packet.socketId
  · obtain ⟨rfl, rfl⟩ := hu.unique ho hw (ht.trans hsocket)
    refine ⟨n + 1, ?_, ?_⟩
    · have hframes : ∀ frame ∈ framesFor other.socketId ((v.procs q).packetNotices packet),
          frame.carries notice = true := by
        intro frame hframe
        obtain ⟨a, ha, rfl⟩ := List.mem_map.mp hframe
        rw [← hpacket]
        exact hcarries a (List.mem_filter.mp ha).1
      have hlength := hone (by rw [← ht, ho.entry]; simp) (by rw [← ht]; exact ho.opened)
      have hmore := hrec.more (h.noticed other.socketId) hframes
      rw [ht, hlength, ← ht] at hmore
      exact hmore
    · simp only [ht, decide_true, if_true] at hcount hsum ⊢
      omega
  · have ht' : packet.socketId ≠ other.socketId := fun heq => ht heq.symm
    refine ⟨n, hrec.congr ?_, ?_⟩
    · by_cases hq : q = s
      · subst hq
        rw [h.noticed _, hothers _ ht, List.append_nil]
      · exact h.noticed_other hq _
    · simp only [ht', decide_false, Bool.false_eq_true, if_false] at hcount
      omega

theorem FanningOut.passed (hf : FanningOut w p notice total v) (hw : WF w)
    (hnotice : notice.isKick = false) (h : Passed v z p s packet) (hs : s ≠ p)
    (hpacket : packet.notice = notice) {user : User} (hu : OnlineAt w s user)
    (hsocket : packet.socketId = user.socketId) : FanningOut w p notice total z := by
  obtain ⟨outbox, hsource, hperm⟩ := h.source
  have hemits := Emits.onPacket (v.procs s) packet
  obtain ⟨husers, hcalls, hout⟩ := hf.others s hs
  have hkick : packet.notice.isKick = false := by rw [hpacket]; exact hnotice
  refine ⟨?_, ?_, ?_, ?_, ?_, ?_, ?_, hf.passed_balance hw h hs hpacket hu hsocket, ?_⟩
  · intro q t
    by_cases hq : q = s
    · rw [hq, h.target, onPacket_sockets packet _ hkick]
      exact hf.sockets s t
    · by_cases hp : q = p
      · rw [hp, hsource]
        exact hf.sockets p t
      · rw [h.other q hp hq]
        exact hf.sockets q t
  · rw [hsource]
    exact hf.users
  · intro q hp
    by_cases hq : q = s
    · rw [hq, h.target, hemits.userList, hemits.outbox]
      refine ⟨husers, ?_, hout⟩
      rw [← hcalls, Proc.calls, hemits.sent, hemits.answered, List.append_nil]
      rfl
    · rw [h.other q hp hq]
      exact hf.others q hp
  · rw [hsource]
    exact hf.calls
  · rw [hsource]
    exact hf.replies
  · intro packet' hp
    rw [hsource] at hp
    exact hf.packets packet' (hperm.mem_iff.mp (List.mem_cons_of_mem _ hp))
  · intro k hk
    rw [h.db]
    exact hf.db k hk
  · intro q t hno
    refine (hf.silent q t hno).congr ?_
    by_cases hq : q = s
    · subst hq
      obtain ⟨-, hothers, -, -⟩ := packetNotices_frames hw packet husers (hf.sockets q)
      have ht : t ≠ packet.socketId := fun heq => hno user hu (hsocket.symm.trans heq.symm)
      rw [h.noticed t, hothers t ht, List.append_nil]
    · exact h.noticed_other hq t

end

/-- A forwarded notice has arrived. -/
theorem FanningOut.delivered {q s : Pid} {n : ℕ} (hf : FanningOut w p notice total v) (hw : WF w)
    (hnotice : notice.isKick = false) (hs : step v (.deliver q n s) = some z) :
    FanningOut w p notice total z := by
  obtain ⟨packet, hp, hurl, hpassed⟩ := step_passed hs
  have hq : q = p := by
    by_contra hne
    rw [(hf.others q hne).2.2] at hp
    cases hp
  subst hq
  obtain ⟨hn, r, user, hr, ho, hurl', hsocket⟩ := hf.packets packet hp
  have hsr : s = r := appInfo_injective (hurl.symm.trans hurl')
  subst hsr
  exact hf.passed hw hnotice (hpassed hr) hr hn ho hsocket

theorem FanningOut.step {e : Event} (hf : FanningOut w p notice total v) (hw : WF w)
    (hall : AllOnline w) (hnotice : notice.isKick = false) (he : e.internal = true)
    (hs : NodeServer.step v e = some z) : FanningOut w p notice total z := by
  cases e with
  | exec q outcome =>
    obtain ⟨c, r, h⟩ := exec_cases v z q outcome hs
    exact hf.executed hall h he
  | reply q =>
    obtain ⟨c, r, rest, news, outs, ws, h⟩ := hf.reply_turn hw hs
    exact hf.replied h
  | deliver q n s => exact hf.delivered hw hnotice hs
  | _ => cases he

/-- When everything has been sent, every session has received what was owed to it. -/
theorem FanningOut.received (hf : FanningOut w p notice total v) (hv : Quiescent v) (q : Pid)
    (user : User) (ho : OnlineAt w q user) :
    Receives w v notice q user.socketId (total user.socketId) := by
  obtain ⟨n, hrec, hsum⟩ := hf.balance q user ho
  have hcalls : (v.procs p).calls = [] := by
    rw [Proc.calls, (hv p).1, (hv p).2.1]
    rfl
  rw [hcalls, (hv p).2.2.1] at hsum
  simp only [List.map_nil, List.sum_nil, List.countP_nil, Nat.add_zero] at hsum
  rwa [← hsum]

end

/-! ### What is owed in the beginning -/

section

variable {w : World} {p : Pid}

/-- A lookup of `u` owes one notice to each session of `u`. -/
theorem owes_keys (hw : WF w) (hall : AllOnline w) {u : Str} (hfinds : FindsOnly w u) {q : Pid}
    {user : User} (ho : OnlineAt w q user) (notice : Notice) (after : AfterSend) :
    (Call.lookupKeys u (.notice notice after)).owes w user.socketId =
      if user.userId = u then 1 else 0 := by
  -- the only record for the connection is that of its user
  have hcount : (Call.lookupKeys u (.notice notice after)).owes w user.socketId =
      (w.recordsOf u).count user.key := by
    rw [List.count_eq_countP]
    apply List.countP_congr
    intro k hk
    obtain ⟨hget, hmatch⟩ := mem_recordsOf.mp hk
    obtain ⟨value, hvalue⟩ := Option.ne_none_iff_exists'.mp hget
    obtain ⟨q', other, ho', rfl⟩ := hall k value (userIdPattern_family u k hmatch) hvalue
    simp only [ho'.socketOf, decide_eq_true_eq, beq_iff_eq]
    constructor
    · intro hs
      rw [(ho.unique ho' hw hs).2]
    · intro hkey
      exact (hw.key_inj ho'.own ho.own hkey).2
  rw [hcount]
  by_cases hu : user.userId = u
  · rw [if_pos hu]
    apply List.count_eq_one_of_mem
    · exact (AList.keys_nodup w.db).filter _
    · refine mem_recordsOf.mpr ⟨?_, (hfinds q user ho).mpr hu⟩
      rw [ho.recorded]
      simp
  · rw [if_neg hu]
    refine List.count_eq_zero.mpr fun hmem => hu ?_
    exact (hfinds q user ho).mp (mem_recordsOf.mp hmem).2

theorem owes_fanOut (hw : WF w) (hall : AllOnline w) {users : List Str}
    (hfinds : ∀ u ∈ users, FindsOnly w u) {q : Pid} {user : User} (ho : OnlineAt w q user)
    (notice : Notice) :
    ((fanOut notice users).map (Call.owes w user.socketId)).sum = users.count user.userId := by
  induction users with
  | nil => rfl
  | cons u users ih =>
    have hhead := owes_keys hw hall (hfinds u (List.mem_cons_self ..)) ho notice .nobody
    have hrest := ih fun u' hu' => hfinds u' (List.mem_cons_of_mem _ hu')
    simp only [fanOut, List.map_cons, List.sum_cons] at hrest ⊢
    rw [hhead, hrest, List.count_cons, Nat.add_comm]
    by_cases hu : user.userId = u
    · simp [hu]
    · simp [hu, Ne.symm hu]

end

end NodeServer

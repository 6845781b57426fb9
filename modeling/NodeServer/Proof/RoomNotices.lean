import NodeServer.Proof.Served
import NodeServer.Proof.CloseNotices
import NodeServer.Proof.Announce

/-! # Room notices

Chatting in a room, closing, entering and leaving it each tell the members of the room
by one notice. When a request is the only thing under way, it has its effect on the
room, and every session of every member gets the notice once, whatever process it is
on. -/

namespace NodeServer

open DBModelKeys

/-! ### Requests that tell the members -/

inductive RoomAction where
  | chat
  | close
  | enter
  | leave

namespace RoomAction

def route : RoomAction → Route
  | chat => .sendLiveChat
  | close => .roomClose
  | enter => .roomIn
  | leave => .roomOut

/- The room concerned: chatting goes to the room the connection has noted. -/
def roomId (a : RoomAction) (noted : JsVal) (req : Request) : JsVal :=
  match a with
  | chat => noted
  | _ => req.roomId

def notice (a : RoomAction) (user : User) (noted : JsVal) (req : Request) : Notice :=
  match a with
  | chat => sendMsgNotice user.userId req.msg
  | close => .roomClose (a.roomId noted req)
  | enter => .roomIn user.userId
  | leave => .roomOut user.userId

/- The members told: who enters or leaves is not told of it. -/
def audience (a : RoomAction) (user : User) (members : List Str) : List Str :=
  match a with
  | chat | close => members
  | enter | leave => members.filter (· ≠ user.userId)

/- What becomes of the room. -/
def effect (a : RoomAction) (user : User) (noted : JsVal) (req : Request) (d : Directory) :
    Directory :=
  match a with
  | chat => d
  | close => d.apply (.closeRoom (a.roomId noted req).text)
  | enter => d.apply (.join (a.roomId noted req).text user.userId)
  | leave => d.apply (.leave (a.roomId noted req).text user.userId)

/- Chatting and leaving need a noted room. -/
def inRoom : RoomAction → Bool
  | chat | leave => true
  | _ => false

/- The others look for the room first. -/
def looks : RoomAction → Bool
  | leave => false
  | _ => true

end RoomAction

/- The request of a logged-in user that passes the checks of its handler, in a world
at rest whose records are up to date. -/
structure RoomAsked (w : World) (p : Pid) (s : Str) (req : Request) (user : User) (a : RoomAction) :
    Prop where
  quiet : Quiescent w
  online : AllOnline w
  opened : (w.procs p).ws s = some .opened
  routed : getRouterByName req.route = some (.handler a.route)
  logged : (w.procs p).userList.get s = some user
  noted : a.inRoom = true → ((w.procs p).ctxRoomId s).isNull = false
  found : a.looks = true → ∃ k, w.db.get k ≠ none ∧
    Glob.stringmatch (roomPattern (a.roomId ((w.procs p).ctxRoomId s) req).text) k = true
  finds : ∀ u ∈ members w.db (a.roomId ((w.procs p).ctxRoomId s) req).text, FindsOnly w u

/-! ### From the request to the fan-out -/

section

variable {w v : World} {p : Pid} {c : Call} {notice : Notice}

/-- The callback that starts the fan-out. -/
theorem FanningOut.start (hq : Quiescent w) {y : Proc} {db : Store.Db} {calls : List Call}
    (hemits : Emits calls (w.procs p) y) (hsockets : SocketsKept (w.procs p) y)
    (hquiet : Quiet (w.procs p) y) (hcalls : ∀ c ∈ calls, FanCall w p notice c)
    (hdb : ∀ k, IsOnlineKey k → db.get k = w.db.get k) :
    FanningOut w p notice (fun t => (calls.map (Call.owes w t)).sum)
      { w.setProc p y with db := db } := by
  have hself : ({ w.setProc p y with db := db } : World).procs p = y := setProc_self w p y
  have hother : ∀ q, q ≠ p → ({ w.setProc p y with db := db } : World).procs q = w.procs q :=
    fun q hne => setProc_ne w p q y hne
  have hflight : y.calls = calls := by
    rw [Proc.calls, hemits.answered, hemits.sent, (hq p).1, (hq p).2.1]
    rfl
  have hnone : ∀ q t, Receives w { w.setProc p y with db := db } notice q t 0 := by
    intro q t
    refine ⟨[], ?_, List.forall_mem_nil _, rfl⟩
    rw [List.append_nil]
    by_cases hne : q = p
    · rw [hne, hself]
      exact hquiet.noticed t
    · rw [hother q hne]
  constructor
  · intro q t
    by_cases hne : q = p
    · rw [hne, hself]
      exact hsockets t
    · rw [hother q hne]
  · intro t
    rw [hself, hemits.userList]
  · intro q hne
    rw [hother q hne]
    refine ⟨rfl, ?_, (hq q).2.2.1⟩
    rw [Proc.calls, (hq q).1, (hq q).2.1]
    rfl
  · rw [hself, hflight]
    exact hcalls
  · intro c r hm
    rw [hself, hemits.answered, (hq p).2.1] at hm
    cases hm
  · intro packet hp
    rw [hself, hemits.outbox, (hq p).2.2.1] at hp
    cases hp
  · exact hdb
  · intro q user _
    refine ⟨0, hnone q _, ?_⟩
    rw [hself, hflight, hemits.outbox, (hq p).2.2.1]
    simp
  · exact fun q t _ => hnone q t

/-- `SMEMBERS` lists the members of the room. -/
theorem Executed.members_reply {m u : World} {e : Event} {r : Store.Reply} {room : Str}
    (h : Executed m u e p c r) (hw : WF m) (he : e.internal = true)
    (hc : c.txn = .one (.smembers (memberPattern room))) :
    ∃ order, r = .array order ∧ order.Perm (members m.db room) := by
  obtain ⟨order, _, _, hr⟩ := h.internal_done he
  have hlist : (c.txn.run m.db).2 = .array (members m.db room) := by
    rw [hc]
    rcases hw.member_type room with hnone | ⟨ms, hset⟩
    · simp [Store.Txn.run, Store.Cmd.run, Store.smembers, members, Store.membersOf, hnone]
    · simp [Store.Txn.run, Store.Cmd.run, Store.smembers, members, Store.membersOf, hset]
  rw [hlist] at hr
  exact ⟨order, Store.inOrder_array order _ r hr⟩

/-- Up to the call that lists the members nothing is told. -/
theorem asking_looked (hq : Quiescent w) (hw : WF (w.asking p c))
    {c' : Call} {roomId : JsVal} (hc : c.txn = .one (.keys (roomPattern roomId.text)))
    (hnext : ∀ k ks, (w.procs p).onReply p c (.array (k :: ks)) = (w.procs p).issue c')
    (hfound : ∃ k, w.db.get k ≠ none ∧ Glob.stringmatch (roomPattern roomId.text) k = true)
    (hrun : Run.Reach step (fun _ e => e.internal = true) (w.asking p c) v) (hv : Quiescent v) :
    WF (w.asking p c') ∧ Run.Reach step (fun _ e => e.internal = true) (w.asking p c') v := by
  obtain ⟨e, u, r, he, hx, hto, hfrom⟩ := (asking_oneCall hq).calledBack hrun (hv.calls p)
  have hmore : ∃ k ks, r = .array (k :: ks) := by
    rcases hx.keys_reply hw he p [] [] roomId hc with ⟨_, hno⟩ | ⟨k, ks, hr, _⟩
    · exact absurd ((finds_iff hw p [] [] roomId).mpr hfound) hno
    · exact ⟨k, ks, hr⟩
  obtain ⟨k, ks, rfl⟩ := hmore
  have hdb : (c.txn.run w.db).1 = w.db := by rw [hc]; rfl
  rw [asking_next hq hdb (hnext k ks)] at hto hfrom
  exact ⟨hw.reach hto, hfrom⟩

end

/-! ### The fan-out of each action -/

section

variable {w v : World} {p : Pid} {notice : Notice}

/- The fan-out has started: one notice is owed to each session of these users, and the
directory will be `d`. -/
structure Telling (w : World) (p : Pid) (notice : Notice) (users : List Str) (d : Directory)
    (z : World) : Prop where
  fanning : ∃ total, FanningOut w p notice total z ∧ ∀ q user, OnlineAt w q user →
    total user.socketId = if user.userId ∈ users then 1 else 0
  completing : Completing p d z

/-- A callback starts the fan-out to the users its reply lists, and makes the calls
`after` beside. -/
theorem Telling.calledBack (hq : Quiescent w) (hw : WF w) (hall : AllOnline w) {c : Call}
    {r : Store.Reply} {users members : List Str} {d : Directory} (after : List Call)
    (hperm : users.Perm members)
    (hnodup : members.Nodup) (hfinds : ∀ u ∈ members, FindsOnly w u)
    (hemits : Emits (fanOut notice users ++ after) (w.procs p) ((w.procs p).onReply p c r))
    (hafter : ∀ d ∈ after, FanCall w p notice d ∧ ∀ t, d.owes w t = 0)
    (hkeys : ∀ userId next, c ≠ .lookupKeys userId next)
    (hhash : ∀ key rest found next, c ≠ .lookupHash key rest found next)
    (hdb : ∀ k, IsOnlineKey k → (c.txn.run w.db).1.get k = w.db.get k)
    (hd : (after.filterMap Call.roomOp).foldl Directory.apply (directoryOf (c.txn.run w.db).1) = d) :
    Telling w p notice members d
      { w.setProc p ((w.procs p).onReply p c r) with db := (c.txn.run w.db).1 } := by
  have hcounted : (w.procs p).counted p (.reply c r) = w.procs p := by
    cases c with
    | lookupKeys userId next => exact absurd rfl (hkeys userId next)
    | lookupHash key rest found next => exact absurd rfl (hhash key rest found next)
    | _ => rfl
  have hquiet := Quiet.reply p (w.procs p) c r
  rw [hcounted] at hquiet
  refine ⟨⟨_, FanningOut.start hq hemits (socketsKept.reply p _ c r hkeys hhash) hquiet ?_ hdb, ?_⟩,
    ?_⟩
  · intro d hd
    rcases List.mem_append.mp hd with hd | hd
    · obtain ⟨u, _, rfl⟩ := List.mem_map.mp hd
      exact .keys u
    · exact (hafter d hd).1
  · intro q user ho
    have hzero : (after.map (Call.owes w user.socketId)).sum = 0 := by
      apply List.sum_eq_zero_iff_forall_eq_nat.mpr
      intro n hn
      obtain ⟨d, hd, rfl⟩ := List.mem_map.mp hn
      exact (hafter d hd).2 _
    simp only [List.map_append, List.sum_append, hzero, Nat.add_zero]
    rw [owes_fanOut hw hall (fun u hu => hfinds u (hperm.mem_iff.mp hu)) ho notice,
      hperm.count_eq, List.Nodup.count hnodup]
  · have hlookups : (fanOut notice users).filterMap Call.roomOp = [] := by
      apply List.filterMap_eq_nil_iff.mpr
      intro d hd
      obtain ⟨u, _, rfl⟩ := List.mem_map.mp hd
      rfl
    rw [Completing, setProc_self, hemits.sent, (hq p).1, List.nil_append, List.filterMap_append,
      hlookups, List.nil_append]
    exact hd

theorem Telling.ended {users : List Str} {d : Directory} {z : World}
    (h : Telling w p notice users d z) (hz : WF z) (hw : WF w) (hall : AllOnline w)
    (hnotice : notice.isKick = false)
    (hrun : Run.Reach step (fun _ e => e.internal = true) z v) (hv : Quiescent v) :
    Ended w v d notice (fun user => if user.userId ∈ users then 1 else 0) fun _ => False := by
  obtain ⟨⟨total, hf, htotal⟩, hc⟩ := h
  have hend : WF v ∧ FanningOut w p notice total v ∧ Completing p d v := by
    refine Run.Reach.invariant (fun v => WF v ∧ FanningOut w p notice total v ∧ Completing p d v)
      ⟨hz, hf, hc⟩ ?_ hrun
    rintro u e u' ⟨hu, hf, hc⟩ he hs
    exact ⟨hu.step hs, hf.step hw hall hnotice he hs, hf.completing hu he hs hc⟩
  obtain ⟨_, hfan, hdone⟩ := hend
  refine ⟨?_, ?_, hfan.silent, fun q user ho _ => hfan.stays ho,
    fun q t _ => ⟨hfan.entries q t, hfan.sockets q t⟩, fun _ _ _ hno => hno.elim⟩
  · rw [Completing, (hv p).1] at hdone
    exact hdone
  · intro q user ho
    rw [← htotal q user ho]
    exact hfan.received hv q user ho

end

section

variable {w v : World} {p : Pid} {s : Str} {req : Request} {user : User}

/-- The call the handler makes. -/
def RoomAction.call (a : RoomAction) (user : User) (noted : JsVal) (req : Request) (h : Handler) :
    Call :=
  match a with
  | chat => .broadcastKeys (some user) noted req.msg h
  | close => .delRoomKeys (some user) req.roomId h
  | enter => .addRoomUserKeys (some user) req.roomId h
  | leave => .delRoomUserMembers (some user) req.roomId (some h)

theorem RoomAsked.step {a : RoomAction} (h : RoomAsked w p s req user a) (now : ℕ) :
    step w (.message p s req now) = some (w.asking p (a.call user ((w.procs p).ctxRoomId s) req
      ((w.procs p).getBaseRespond s req.id a.route))) := by
  have hreact : (w.procs p).onMessage p s req now = (w.procs p).issue (a.call user
      ((w.procs p).ctxRoomId s) req ((w.procs p).getBaseRespond s req.id a.route)) := by
    simp only [Proc.onMessage, h.routed]
    cases a with
    | chat =>
      have hnoted := h.noted rfl
      simp [Proc.handle, RoomAction.route, RoomAction.call, hnoted, Proc.getUserWithSocket, h.logged,
        Proc.broadcast]
    | close =>
      simp [Proc.handle, RoomAction.route, RoomAction.call, Proc.getUserWithSocket, h.logged,
        Proc.delRoom]
    | enter =>
      simp [Proc.handle, RoomAction.route, RoomAction.call, Proc.getUserWithSocket, h.logged,
        Proc.addRoomUser]
    | leave =>
      have hnoted := h.noted rfl
      simp [Proc.handle, RoomAction.route, RoomAction.call, hnoted, Proc.getUserWithSocket, h.logged,
        Proc.delRoomUser]
  simp only [NodeServer.step, inputOf, h.opened, Option.map_some, takeOff, react, hreact]
  rfl

theorem delRoomExec_emits (p : Pid) (x : Proc) (roomId : JsVal) (hd : Handler) (r : Store.Reply) :
    Emits (fanOut (.roomClose roomId) (closedMembers r)) x (x.onReply p (.delRoomExec roomId hd) r) := by
  have result : ∀ err, Emits [] x (x.roomResult hd (.room roomId) err) :=
    fun err => Emits.roomResult x hd (.room roomId) err
  cases r with
  | error err => exact result (some err)
  | exec replies =>
    cases replies with
    | nil => exact result none
    | cons first rest =>
      cases first with
      | array res =>
        exact (Emits.notifyAll x (.roomClose roomId) res).quiet
          (Emits.roomResult _ hd (.room roomId) none)
      | _ => exact result none
  | _ => exact result none

section

variable (hq : Quiescent w) (hw : WF w) (hall : AllOnline w) (hnodup : Store.SetsNodup w.db)
  {roomId : JsVal} {hd : Handler} (hfinds : ∀ u ∈ members w.db roomId.text, FindsOnly w u)
  (hv : Quiescent v)
include hq hw hall hnodup hfinds hv

theorem chat_telling {msg : JsVal}
    (hasking : WF (w.asking p (.broadcastMembers (some user) roomId msg hd)))
    (hrun : Run.Reach NodeServer.step (fun _ e => e.internal = true)
      (w.asking p (.broadcastMembers (some user) roomId msg hd)) v) :
    Ended w v (directoryOf w.db) (sendMsgNotice user.userId msg)
      (fun other => if other.userId ∈ members w.db roomId.text then 1 else 0) fun _ => False := by
  obtain ⟨e, u, r, he, hx, hto, hfrom⟩ := (asking_oneCall hq).calledBack hrun (hv.calls p)
  obtain ⟨order, rfl, hperm⟩ := hx.members_reply hasking he rfl
  have hz := hasking.reach hto
  rw [asking_calledBack hq] at hfrom hz
  refine (Telling.calledBack hq hw hall [] hperm (hnodup _) hfinds ?_ (List.forall_mem_nil _)
    (by simp) (by simp) (fun k _ => rfl) rfl).ended hz hw hall rfl hfrom hv
  rw [List.append_nil]
  exact (Emits.notifyAll (w.procs p) (sendMsgNotice user.userId msg) order).quiet
    (Emits.roomResult _ hd .empty none)

theorem close_telling (hasking : WF (w.asking p (.delRoomExec roomId hd)))
    (hrun : Run.Reach NodeServer.step (fun _ e => e.internal = true)
      (w.asking p (.delRoomExec roomId hd)) v) :
    Ended w v ((directoryOf w.db).apply (.closeRoom roomId.text)) (.roomClose roomId)
      (fun other => if other.userId ∈ members w.db roomId.text then 1 else 0) fun _ => False := by
  obtain ⟨e, u, r, he, hx, hto, hfrom⟩ := (asking_oneCall hq).calledBack hrun (hv.calls p)
  obtain ⟨order, heq, _⟩ := hx.internal_done he
  obtain ⟨_, hperm⟩ := hx.closed_reply hasking heq
  have hz := hasking.reach hto
  rw [asking_calledBack hq] at hfrom hz
  refine (Telling.calledBack hq hw hall [] hperm (hnodup _) hfinds ?_ (List.forall_mem_nil _)
    (by simp) (by simp) ?_ (directory_close roomId hd)).ended hz hw hall rfl hfrom hv
  · rw [List.append_nil]
    exact delRoomExec_emits p (w.procs p) roomId hd r
  · intro k hk
    rcases run_cases (.delRoomExec roomId hd) w.db k with hsame | hwrites
    · exact hsame
    · cases hwrites with
      | close _ _ _ hkey =>
        rcases hkey with hkey | hkey
        · exact absurd hkey (hk.ne_member _)
        · exact absurd hkey (hk.ne_room _)

theorem enter_telling (hasking : WF (w.asking p (.addRoomUserMembers user roomId hd)))
    (hrun : Run.Reach NodeServer.step (fun _ e => e.internal = true)
      (w.asking p (.addRoomUserMembers user roomId hd)) v) :
    Ended w v ((directoryOf w.db).apply (.join roomId.text user.userId)) (.roomIn user.userId)
      (fun other =>
        if other.userId ∈ (members w.db roomId.text).filter (· ≠ user.userId) then 1 else 0)
      fun _ => False := by
  obtain ⟨e, u, r, he, hx, hto, hfrom⟩ := (asking_oneCall hq).calledBack hrun (hv.calls p)
  obtain ⟨order, rfl, hperm⟩ := hx.members_reply hasking he rfl
  have hz := hasking.reach hto
  rw [asking_calledBack hq] at hfrom hz
  refine (Telling.calledBack hq hw hall [.addRoomUserAdd user roomId hd]
    (hperm.filter (· ≠ user.userId)) ((hnodup _).filter _)
    (fun u' hu' => hfinds u' (List.mem_filter.mp hu').1) ?_ ?_ (by simp) (by simp) (fun k _ => rfl)
    rfl).ended hz hw hall rfl hfrom hv
  · exact (Emits.notifyOthers (w.procs p) user (.roomIn user.userId) order).trans (Emits.issue _ _)
  · intro d hd'
    rw [List.mem_singleton.mp hd']
    exact ⟨.join user roomId hd, fun _ => rfl⟩

theorem leave_telling {hd : Option Handler}
    (hasking : WF (w.asking p (.delRoomUserMembers (some user) roomId hd)))
    (hrun : Run.Reach NodeServer.step (fun _ e => e.internal = true)
      (w.asking p (.delRoomUserMembers (some user) roomId hd)) v) :
    Ended w v ((directoryOf w.db).apply (.leave roomId.text user.userId)) (.roomOut user.userId)
      (fun other =>
        if other.userId ∈ (members w.db roomId.text).filter (· ≠ user.userId) then 1 else 0)
      fun _ => False := by
  obtain ⟨e, u, r, he, hx, hto, hfrom⟩ := (asking_oneCall hq).calledBack hrun (hv.calls p)
  obtain ⟨order, rfl, hperm⟩ := hx.members_reply hasking he rfl
  have hz := hasking.reach hto
  rw [asking_calledBack hq] at hfrom hz
  refine (Telling.calledBack hq hw hall [.delRoomUserRem user roomId hd]
    (hperm.filter (· ≠ user.userId)) ((hnodup _).filter _)
    (fun u' hu' => hfinds u' (List.mem_filter.mp hu').1) ?_ ?_ (by simp) (by simp) (fun k _ => rfl)
    rfl).ended hz hw hall rfl hfrom hv
  · exact (Emits.notifyOthers (w.procs p) user (.roomOut user.userId) order).trans (Emits.issue _ _)
  · intro d hd'
    rw [List.mem_singleton.mp hd']
    exact ⟨.leave user roomId hd, fun _ => rfl⟩

end

theorem setsNodup_reachable (h : Reachable w) : Store.SetsNodup w.db := by
  refine Run.Reach.invariant (fun w => Store.SetsNodup w.db) ?_ ?_ h
  · intro key
    exact List.nodup_nil
  · intro v e v' hnodup _ hs
    rcases step_cases v v' e hs with ⟨q, c, r, hx⟩ | ⟨q, i, x, hx⟩
    · exact hx.setsNodup hnodup
    · rw [hx.db]
      exact hnodup

/-- Whatever the order of the steps, the request has its effect and the members are told. -/
theorem RoomAsked.ended {a : RoomAction} (h : RoomAsked w p s req user a) (hreach : Reachable w)
    {now : ℕ} {m : World} (hm : NodeServer.step w (.message p s req now) = some m)
    (hrun : Run.Reach NodeServer.step (fun _ e => e.internal = true) m v) (hv : Quiescent v) :
    Ended w v (a.effect user ((w.procs p).ctxRoomId s) req (directoryOf w.db))
      (a.notice user ((w.procs p).ctxRoomId s) req)
      (fun other => if other.userId ∈
        a.audience user (members w.db (a.roomId ((w.procs p).ctxRoomId s) req).text) then 1 else 0)
      fun _ => False := by
  have hw := WF.initial.reach hreach
  have hnodup := setsNodup_reachable hreach
  have hwm := hw.step hm
  rw [h.step now] at hm
  rw [← Option.some.inj hm] at hrun hwm
  cases a with
  | chat =>
    obtain ⟨hw', hrun'⟩ := asking_looked h.quiet hwm rfl (fun k ks => rfl) (h.found rfl) hrun hv
    exact chat_telling h.quiet hw h.online hnodup h.finds hv hw' hrun'
  | close =>
    obtain ⟨hw', hrun'⟩ := asking_looked h.quiet hwm rfl (fun k ks => rfl) (h.found rfl) hrun hv
    exact close_telling h.quiet hw h.online hnodup h.finds hv hw' hrun'
  | enter =>
    obtain ⟨hw', hrun'⟩ := asking_looked h.quiet hwm rfl (fun k ks => rfl) (h.found rfl) hrun hv
    exact enter_telling h.quiet hw h.online hnodup h.finds hv hw' hrun'
  | leave => exact leave_telling h.quiet hw h.online hnodup h.finds hv hwm hrun

/- A call about a room closes no connection. -/
theorem RoomAsked.noCloses {a : RoomAction} (h : RoomAsked w p s req user a) {now : ℕ} {m : World}
    (hm : NodeServer.step w (.message p s req now) = some m) : NoCloses m := by
  rw [h.step now] at hm
  rw [← Option.some.inj hm]
  refine asking_noCloses h.quiet ?_
  cases a with
  | _ => rfl

/-- A chat message, the closing of a room, and a user entering or leaving it change the
room as asked, and are told to every session of every member they are meant for, once,
and to nobody else. -/
theorem room_requests_carried_out {a : RoomAction} (now : ℕ) (hreach : Reachable w)
    (h : RoomAsked w p s req user a) :
    CarriedOut w (.message p s req now)
      (a.effect user ((w.procs p).ctxRoomId s) req (directoryOf w.db))
      (a.notice user ((w.procs p).ctxRoomId s) req)
      (fun other => if other.userId ∈
        a.audience user (members w.db (a.roomId ((w.procs p).ctxRoomId s) req).text) then 1 else 0)
      fun _ => False := by
  have hnext := Run.Reach.tail _ hreach trivial (h.step now)
  refine ⟨⟨_, h.step now, reachable_ends hnext, fun _ hv => reachable_rest hnext hv⟩, ?_⟩
  intro m v hm hrun hv
  have hreachm := Run.Reach.tail _ hreach trivial hm
  exact h.ended hreach hm ((h.noCloses hm).reach hreachm hrun).2 hv

end

/-! ### A room with a member on each of two processes -/

section

variable {w : World}

/-- Each record is that of one of the users listed. -/
theorem AllOnline.ofUsers (users : List (Pid × User)) (hon : ∀ a ∈ users, OnlineAt w a.1 a.2)
    (h : ∀ k ∈ w.db.keys, OnlineUserKey ++ ['-'] <+: k → ∃ a ∈ users, k = a.2.key) :
    AllOnline w := by
  intro k value hk hvalue
  obtain ⟨a, ha, rfl⟩ := h k ((Table.mem_keys_iff _ _).mpr ⟨value, hvalue⟩) hk
  exact ⟨a.1, a.2, hon a ha, rfl⟩

theorem FindsOnly.ofTest {u : Str} (ps : List Pid)
    (hidle : ∀ q, q ∉ ps → w.procs q = Proc.initial)
    (h : ∀ q ∈ ps, ∀ s ∈ (w.procs q).userList.keys, ∀ user ∈ (w.procs q).userList.get s,
      (Glob.stringmatch (userIdPattern u) user.key = true ↔ user.userId = u)) :
    FindsOnly w u := by
  intro q user ho
  have hq : q ∈ ps := by
    by_contra hq
    have hentry := ho.entry
    rw [hidle q hq] at hentry
    cases hentry
  exact h q hq _ ((Table.mem_keys_iff _ _).mpr ⟨user, ho.entry⟩) user ho.entry

end

/- B has joined after A, who has been told. -/
def bothInRoomTrace : List Event :=
  twoUsersTrace ++ joinInTurnTrace ++ served 1 [] ++ [.deliver 1 0 0]

def bothInRoom : World := Run.ends step World.initial bothInRoomTrace

def memberA : User := createUserWithLogin 0 0 ['u'] (socketIdOf ['A']) (natText 1) (natText 2)
def memberB : User := createUserWithLogin 1 0 ['v'] (socketIdOf ['B']) (natText 4) (natText 5)

def liveChatRequest (msg : Str) : Request :=
  ⟨1, Route.sendLiveChat.name, none, .undefined, none, .str msg⟩

/-- Both are online in room 1, and everything is at rest. -/
theorem bothInRoom_online :
    Reachable bothInRoom ∧ Quiescent bothInRoom ∧ AllOnline bothInRoom ∧
      OnlineAt bothInRoom 0 memberA ∧ OnlineAt bothInRoom 1 memberB ∧
      (bothInRoom.procs 0).ctxRoomId memberA.socketId = .str ['1'] ∧
      bothInRoom.db.get (roomPattern ['1']) ≠ none ∧
      members bothInRoom.db ['1'] = [['u'], ['v']] ∧
      ∀ u ∈ members bothInRoom.db ['1'], FindsOnly bothInRoom u := by
  obtain ⟨hrun, hdone, hA, hB, hnoted, hroom, hmembers, hkeys, hfinds⟩ :
      (Run.runs step World.initial bothInRoomTrace).isSome = true ∧
      ((bothInRoomTrace.flatMap Event.pids).all fun p => (bothInRoom.procs p).quiet) = true ∧
      ((bothInRoom.procs 0).userList.get (socketIdOf ['A']) = some memberA ∧
        (bothInRoom.procs 0).ws (socketIdOf ['A']) = some .opened) ∧
      ((bothInRoom.procs 1).userList.get (socketIdOf ['B']) = some memberB ∧
        (bothInRoom.procs 1).ws (socketIdOf ['B']) = some .opened) ∧
      (bothInRoom.procs 0).ctxRoomId (socketIdOf ['A']) = .str ['1'] ∧
      roomPattern ['1'] ∈ bothInRoom.db.keys ∧
      members bothInRoom.db ['1'] = [['u'], ['v']] ∧
      (∀ k ∈ bothInRoom.db.keys, OnlineUserKey ++ ['-'] <+: k →
        ∃ a ∈ [(0, memberA), (1, memberB)], k = a.2.key) ∧
      ∀ u ∈ members bothInRoom.db ['1'], ∀ q ∈ [0, 1], ∀ s ∈ (bothInRoom.procs q).userList.keys,
        ∀ user ∈ (bothInRoom.procs q).userList.get s,
          (Glob.stringmatch (userIdPattern u) user.key = true ↔ user.userId = u) := by
    decide +kernel
  have honA : OnlineAt bothInRoom 0 memberA := ⟨hA.1, hA.2, rfl⟩
  have honB : OnlineAt bothInRoom 1 memberB := ⟨hB.1, hB.2, rfl⟩
  have hall : AllOnline bothInRoom := by
    refine AllOnline.ofUsers [(0, memberA), (1, memberB)] ?_ hkeys
    simp [honA, honB]
  have hget : bothInRoom.db.get (roomPattern ['1']) ≠ none := by
    obtain ⟨room, hget⟩ := (Table.mem_keys_iff _ _).mp hroom
    rw [hget]
    exact Option.some_ne_none room
  exact ⟨Run.reach_ends bothInRoomTrace hrun,
    quiescent_ends bothInRoomTrace _ (Run.runs_ends hrun) hdone, hall, honA, honB, hnoted, hget,
    hmembers, fun u hu => FindsOnly.ofTest [0, 1]
      (untouched_ends [0, 1] bothInRoomTrace (by decide) hrun) (hfinds u hu)⟩

/- A writes to the room, and every session of A and of B gets the message. -/
theorem chat_told_to_both :
    CarriedOut bothInRoom (.message 0 memberA.socketId (liveChatRequest ['h']) 8)
      (directoryOf bothInRoom.db) (sendMsgNotice ['u'] (.str ['h']))
      (fun other => if other.userId ∈ [['u'], ['v']] then 1 else 0) (fun _ => False) ∧
    OnlineAt bothInRoom 0 memberA ∧ OnlineAt bothInRoom 1 memberB := by
  obtain ⟨hreach, hquiet, hall, honA, honB, hnoted, hroom, hmembers, hfinds⟩ := bothInRoom_online
  have hasked : RoomAsked bothInRoom 0 memberA.socketId (liveChatRequest ['h']) memberA .chat := by
    refine ⟨hquiet, hall, honA.opened, by decide, honA.entry, ?_, ?_, ?_⟩
    · intro _
      rw [hnoted]
      rfl
    · intro _
      rw [RoomAction.roomId, hnoted]
      exact ⟨roomPattern ['1'], hroom, by decide +kernel⟩
    · rw [RoomAction.roomId, hnoted]
      exact hfinds
  have htold : CarriedOut bothInRoom (.message 0 memberA.socketId (liveChatRequest ['h']) 8)
      (directoryOf bothInRoom.db) (sendMsgNotice ['u'] (.str ['h']))
      (fun other => if other.userId ∈
        members bothInRoom.db ((bothInRoom.procs 0).ctxRoomId memberA.socketId).text then 1 else 0)
      (fun _ => False) :=
    room_requests_carried_out 8 hreach hasked
  rw [hnoted] at htold
  exact ⟨hmembers ▸ htold, honA, honB⟩

end NodeServer

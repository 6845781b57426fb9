import NodeServer.Proof.RoomNotices

/-! # Departures

A client that logs out or closes its websocket ends its session. The close event that
follows takes the user out of `userList`, deletes its record and leaves the room it is
in, and the members that stay are told. -/

namespace NodeServer

open DBModelKeys

/-! ### The session that ends -/

inductive Departs (p : Pid) (s : Str) : Event → Prop
  | logout (req : Request) (now : ℕ)
      (routed : getRouterByName req.route = some (.handler .logout)) :
      Departs p s (.message p s req now)
  | close : Departs p s (.peerClose p s)

/- The room the connection has noted. -/
def World.notedRoom (w : World) (p : Pid) (s : Str) : Option Str :=
  if ((w.procs p).ctxRoomId s).isNull then none else some ((w.procs p).ctxRoomId s).text

def departureOps (u : Str) (s : SocketId) (room : Option Str) : List Directory.Op :=
  .unregister u s :: room.toList.map fun room => .leave room u

/- The other members of the room. -/
def World.leftBehind (w : World) (p : Pid) (user : User) : List Str :=
  (w.notedRoom p user.socketId).toList.flatMap fun room =>
    (members w.db room).filter (· ≠ user.userId)

/- The client of `user` goes, in a world at rest whose records are up to date. -/
structure Leaves (w : World) (p : Pid) (user : User) (e : Event) : Prop where
  quiet : Quiescent w
  online : AllOnline w
  session : OnlineAt w p user
  departs : Departs p user.socketId e
  finds : ∀ room ∈ w.notedRoom p user.socketId, ∀ u ∈ members w.db room, FindsOnly w u

/-! ### The process of the client -/

section

variable {x y : Proc} {s : Str}

/- The websocket has begun to close, and all else is as it was. -/
structure Closing (x y : Proc) (s : Str) : Prop where
  sockets : ∀ t, y.ws t = if t = s then some .closing else x.ws t
  room : y.ctxRoomId s = x.ctxRoomId s
  emits : Emits [] x y
  quiet : Quiet x y

theorem wsClose_closing (h : x.ws s = some .opened) (t : Str) :
    (x.wsClose s).ws t = if t = s then some .closing else x.ws t := by
  obtain ⟨c, hget, hc⟩ := Option.map_eq_some_iff.mp h
  simp only [Proc.ws, Proc.wsClose, Proc.setConn, Table.get_modify]
  by_cases ht : t = s
  · simp [ht, hget, hc]
  · simp [ht]

theorem wsClose_ctxRoomId (x : Proc) (s : Str) : (x.wsClose s).ctxRoomId s = x.ctxRoomId s := by
  simp only [Proc.ctxRoomId, Proc.wsClose, Proc.setConn, Table.get_modify, if_true]
  cases x.conns.get s with
  | none => rfl
  | some c =>
    by_cases hc : c.ws = .opened
    · simp [hc]
    · simp [hc]

theorem Closing.wsClose (h : x.ws s = some .opened) : Closing x (x.wsClose s) s :=
  ⟨wsClose_closing h, wsClose_ctxRoomId x s, Emits.wsClose x s, Quiet.wsClose x s⟩

theorem setConn_ctxRoomId (x : Proc) (s : Str) (f : Conn → Conn) (hf : ∀ c, (f c).roomId = c.roomId) :
    (x.setConn s f).ctxRoomId s = x.ctxRoomId s := by
  simp only [Proc.ctxRoomId, Proc.setConn, Table.get_modify, if_true, Option.map_map]
  congr 2
  funext c
  exact hf c

/-- A logout is answered, and then the websocket is closed. -/
theorem Closing.respond {h : Handler} (hs : h.socketId = s) (hopen : x.ws s = some .opened) :
    Closing x (x.sendRespond h true) s := by
  refine ⟨?_, ?_, Emits.sendRespond x h true, Quiet.sendRespond x h true⟩
  · intro t
    have hsent : (x.setConn s fun c => { c with frames := c.frames ++ [.respond h.resData] }).ws =
        x.ws := funext fun t => setConn_ws x s t _ fun _ => rfl
    simp only [Proc.sendRespond, Proc.wsSend, hs, hopen, if_true, Proc.settle]
    rw [setConn_ws _ s t _ (by intro c; rfl), wsClose_closing (hsent ▸ hopen), hsent]
  · simp only [Proc.sendRespond, Proc.wsSend, hs, hopen, if_true, Proc.settle]
    rw [setConn_ctxRoomId _ s _ (by intro c; rfl), wsClose_ctxRoomId,
      setConn_ctxRoomId _ s _ (by intro c; rfl)]

/- The close event has come. -/
structure Departed (x y : Proc) (s : Str) : Prop where
  sockets : ∀ t, y.ws t = if t = s then some .closed else x.ws t
  users : ∀ t, y.userList.get t = if t = s then none else x.userList.get t
  sent : y.sent = x.sent ++ x.leaveCalls s
  answered : y.answered = x.answered
  outbox : y.outbox = x.outbox
  quiet : Quiet x y

theorem Closing.departed (h : Closing x y s) (hk : x.Keyed) : Departed x (y.onClose s) s := by
  have hky : (y.setWs s .closed).Keyed := by
    intro t user hu
    rw [show (y.setWs s .closed).userList = x.userList from h.emits.userList] at hu
    exact hk t user hu
  have hsent := disconnect_sent (y.setWs s .closed) s
  obtain ⟨hans, hout, _⟩ := disconnect_rest (y.setWs s .closed) s
  have husers := disconnect_userList (y.setWs s .closed) s
  have hlast := rejectConn_quiet ((y.setWs s .closed).disconnect s) s
    (by rw [husers s hky, if_pos rfl])
  have hleave : (y.setWs s .closed).leaveCalls s = x.leaveCalls s := by
    unfold Proc.leaveCalls
    rw [ctxRoomId_setWs, h.room, show (y.setWs s .closed).userList = x.userList from h.emits.userList]
  refine ⟨?_, ?_, ?_, ?_, ?_, h.quiet.trans (Quiet.shut y s .closed)⟩
  · intro t
    rw [Proc.onClose, socketsKept.rejectConn _ s t, socketsKept.disconnect _ s t]
    simp only [Proc.ws, Proc.setWs, Proc.setConn, Table.get_modify]
    by_cases ht : t = s
    · have hclosing := h.sockets s
      obtain ⟨c, hget, _⟩ := Option.map_eq_some_iff.mp (hclosing.trans (if_pos rfl))
      simp [ht, hget]
    · have hsame := h.sockets t
      simp only [ht, if_false] at hsame ⊢
      exact hsame
  · intro t
    rw [Proc.onClose, hlast.userList, husers t hky,
      show (y.setWs s .closed).userList = x.userList from h.emits.userList]
  · rw [Proc.onClose, hlast.sent, hsent, hleave, List.append_nil]
    congr 1
    exact h.emits.sent.trans (List.append_nil _)
  · rw [Proc.onClose, hlast.answered, hans]
    exact h.emits.answered
  · rw [Proc.onClose, hlast.outbox, hout]
    exact h.emits.outbox

end

/-! ### The logout -/

/- The record of the user has been deleted, and the calls `rest` of its process are left. -/
def World.deleted (m : World) (p : Pid) (user : User) (rest : List Call) : World :=
  { m.setProc p { m.procs p with sent := rest } with db := ((Call.logoutDel user).txn.run m.db).1 }

/- The oldest callback of `p` has not run yet. -/
def World.awaiting (m : World) (p : Pid) (a : Call × Store.Reply) : World :=
  m.setProc p { m.procs p with answered := a :: (m.procs p).answered }

section

variable {m v z : World} {p : Pid} {user : User} {r : Store.Reply}

/-- The next call is executed whether or not the callback has run. -/
theorem awaiting_exec {a : Call × Store.Reply} {order : List Str}
    (hs : step (m.awaiting p a) (.exec p (.done order)) = some z) :
    ∃ z', step m (.exec p (.done order)) = some z' ∧ z = z'.awaiting p a := by
  simp only [step, execStep, World.awaiting, setProc_self] at hs
  cases hsent : (m.procs p).sent with
  | nil =>
    rw [hsent] at hs
    cases hs
  | cons c rest =>
    rw [hsent] at hs
    obtain ⟨r, hr, rfl⟩ := Option.map_eq_some_iff.mp hs
    refine ⟨_, by simp only [step, execStep, hsent, Option.map_eq_some_iff]; exact ⟨r, hr, rfl⟩, ?_⟩
    rw [World.awaiting]
    refine (setProc_setProc { m with db := (c.txn.run m.db).1 } p _ _).trans (Eq.symm ?_)
    refine (setProc_setProc { m with db := (c.txn.run m.db).1 } p _ _).trans ?_
    simp only [setProc_self, List.cons_append]

/-- The callback of `DEL` does nothing. -/
theorem awaiting_reply (hs : step (m.awaiting p (.logoutDel user, r)) (.reply p) = some z) :
    z = m := by
  obtain ⟨c, r', rest, hans, rfl⟩ := step_reply hs
  simp only [World.awaiting, setProc_self] at hans
  obtain ⟨hcall, hrest⟩ := List.cons.inj hans
  obtain ⟨rfl, rfl⟩ := Prod.mk.inj hcall
  rw [← hrest, World.awaiting, setProc_setProc, setProc_self]
  exact setProc_same m p

theorem Alone.awaiting {a : Call × Store.Reply} (h : Alone m p) : Alone (m.awaiting p a) p where
  outbox := by
    intro q
    by_cases hq : q = p
    · rw [hq, World.awaiting, setProc_self]
      exact h.outbox p
    · rw [World.awaiting, setProc_ne m p q _ hq]
      exact h.outbox q
  others := by
    intro q hq
    rw [World.awaiting, setProc_ne m p q _ hq]
    exact h.others q hq

/-- Calls that wait for Redis overtake the callback of `DEL`, with no difference. -/
theorem awaiting_reach (hm : Alone m p)
    (hrun : Run.Reach step (fun _ e => e.internal = true) (m.awaiting p (.logoutDel user, r)) v)
    (hv : Quiescent v) : Run.Reach step (fun _ e => e.internal = true) m v := by
  have hinv : Run.Reach step (fun _ e => e.internal = true) m v ∨
      ∃ z, Alone z p ∧ Run.Reach step (fun _ e => e.internal = true) m z ∧
        v = z.awaiting p (.logoutDel user, r) := by
    refine Run.Reach.invariant (fun v => Run.Reach step (fun _ e => e.internal = true) m v ∨
      ∃ z, Alone z p ∧ Run.Reach step (fun _ e => e.internal = true) m z ∧
        v = z.awaiting p (.logoutDel user, r)) (Or.inr ⟨m, hm, .refl, rfl⟩) ?_ hrun
    rintro u e u' (hto | ⟨z, hz, hto, rfl⟩) he hs
    · exact Or.inl (.tail e hto he hs)
    · rcases hz.awaiting.next he hs with rfl | ⟨order, rfl⟩
      · rw [awaiting_reply hs]
        exact Or.inl hto
      · obtain ⟨z', hs', rfl⟩ := awaiting_exec hs
        obtain ⟨c, r', hx⟩ := exec_cases z z' p _ hs'
        exact Or.inr ⟨z', hz.executed hx, .tail _ hto he hs', rfl⟩
  rcases hinv with hto | ⟨z, _, _, rfl⟩
  · exact hto
  · have hans := (hv p).2.1
    rw [World.awaiting, setProc_self] at hans
    cases hans

/-- A run that brings everything to rest first deletes the record. -/
theorem deleted_reach {rest : List Call} (hm : Alone m p)
    (hsent : (m.procs p).sent = .logoutDel user :: rest) (hans : (m.procs p).answered = [])
    (hrun : Run.Reach step (fun _ e => e.internal = true) m v) (hv : Quiescent v) :
    Run.Reach step (fun _ e => e.internal = true) m (m.deleted p user rest) ∧
      Run.Reach step (fun _ e => e.internal = true) (m.deleted p user rest) v := by
  rcases hrun.cases_head with rfl | ⟨e, u, he, hu, hrest⟩
  · rw [(hv p).1] at hsent
    cases hsent
  · rcases hm.next he hu with rfl | ⟨order, rfl⟩
    · obtain ⟨c, r, rest', hans', _⟩ := step_reply hu
      rw [hans] at hans'
      cases hans'
    · simp only [step, execStep, hsent, hans] at hu
      obtain ⟨r, hr, rfl⟩ := Option.map_eq_some_iff.mp hu
      have halone : Alone (m.deleted p user rest) p := by
        refine ⟨fun q => ?_, fun q hq => ?_⟩
        · by_cases hq : q = p
          · rw [hq, World.deleted, setProc_self]
            exact hm.outbox p
          · rw [World.deleted, setProc_ne m p q _ hq]
            exact hm.outbox q
        · rw [World.deleted, setProc_ne m p q _ hq]
          exact hm.others q hq
      have hwait : (m.deleted p user rest).awaiting p (.logoutDel user, r) =
          { m.setProc p { m.procs p with sent := rest, answered := [(.logoutDel user, r)] } with
            db := ((Call.logoutDel user).txn.run m.db).1 } := by
        refine (setProc_setProc { m with db := ((Call.logoutDel user).txn.run m.db).1 } p _ _).trans ?_
        rw [World.deleted, setProc_self, hans]
        rfl
      have hfrom : Run.Reach step (fun _ e => e.internal = true)
          ((m.deleted p user rest).awaiting p (.logoutDel user, r)) v := by
        rw [hwait]
        exact hrest
      exact ⟨Run.reach_of_runs [.exec p (.done order), .reply p] m _ (by simp [Event.internal])
        (serve_call m p (.logoutDel user) rest order r hsent hans hr), awaiting_reach halone hfrom hv⟩

end

/-! ### The servers without the session -/

section

variable {w v : World} {p : Pid} {user : User} {e : Event} {z : Proc}

theorem Leaves.begins (h : Leaves w p user e) :
    ∃ y, step w e = some (w.setProc p y) ∧ Closing (w.procs p) y user.socketId := by
  have hopen := h.session.opened
  cases h.departs with
  | logout req now routed =>
    have hs := getBaseRespond_socketId (w.procs p) user.socketId req.id .logout
    have hreact : (w.procs p).onMessage p user.socketId req now = (w.procs p).sendRespond
        ((w.procs p).getBaseRespond user.socketId req.id .logout) true := by
      simp [Proc.onMessage, routed, Proc.handle, Proc.getUserWithSocket, h.session.entry]
    refine ⟨_, ?_, Closing.respond hs hopen⟩
    simp only [step, inputOf, hopen, Option.map_some, takeOff, react, hreact]
  | close =>
    refine ⟨_, ?_, Closing.wsClose hopen⟩
    simp [step, inputOf, hopen, takeOff, react]

/- Only the close event is left to come. -/
theorem closing_next {y : Proc} {s : Str} (hq : Quiescent w) (hc : Closing (w.procs p) y s) {u : World}
    (he : e.smooth = true) (hs : step (w.setProc p y) e = some u) :
    e = .wsClose p s ∧ u = w.setProc p (y.onClose s) := by
  have hidle : ∀ q, ((w.setProc p y).procs q).sent = [] ∧ ((w.setProc p y).procs q).answered = [] ∧
      ((w.setProc p y).procs q).outbox = [] := by
    intro q
    by_cases hne : q = p
    · rw [hne, setProc_self, hc.emits.sent, hc.emits.answered, hc.emits.outbox]
      exact ⟨(List.append_nil _).trans (hq p).1, (hq p).2.1, (hq p).2.2.1⟩
    · rw [setProc_ne w p q y hne]
      exact ⟨(hq q).1, (hq q).2.1, (hq q).2.2.1⟩
  cases e with
  | wsClose q t =>
    have hclosing : ((w.setProc p y).procs q).ws t = some .closing := by
      by_contra hno
      simp [step, inputOf, hno] at hs
    have hp : q = p := by
      by_contra hne
      rw [setProc_ne w p q y hne] at hclosing
      exact (hq q).2.2.2 t hclosing
    subst hp
    have ht : t = s := by
      by_contra hne
      rw [setProc_self, hc.sockets t, if_neg hne] at hclosing
      exact (hq q).2.2.2 t hclosing
    subst ht
    rw [setProc_self] at hclosing
    simp only [step, inputOf, hclosing, if_true, Option.map_some, takeOff, react, setProc_self,
      setProc_setProc] at hs
    exact ⟨rfl, (Option.some.inj hs).symm⟩
  | exec q outcome =>
    obtain ⟨c, r, hx⟩ := exec_cases _ _ q outcome hs
    have hsent := hx.sent
    rw [(hidle q).1] at hsent
    cases hsent
  | reply q =>
    obtain ⟨c, r, rest, hans, _⟩ := step_reply hs
    rw [(hidle q).2.1] at hans
    cases hans
  | deliver q n s =>
    obtain ⟨packet, hget, _⟩ := step_deliver hs
    rw [(hidle q).2.2] at hget
    cases hget
  | _ => cases he

/-- Nothing can happen before the close event. -/
theorem Leaves.closes (h : Leaves w p user e) (hw : WF w) {m : World} (hm : step w e = some m)
    (hrun : Run.Reach step (fun _ e => e.smooth = true) m v) (hv : Quiescent v) :
    ∃ z, Departed (w.procs p) z user.socketId ∧
      step m (.wsClose p user.socketId) = some (w.setProc p z) ∧
      Run.Reach step (fun _ e => e.smooth = true) (w.setProc p z) v := by
  obtain ⟨y, hy, hc⟩ := h.begins
  rw [hm] at hy
  cases hy
  have hk : (w.procs p).Keyed := fun s user hu => (hw.users p s user hu).1
  rcases hrun.cases_head with rfl | ⟨e', u, he', hu, hrest⟩
  · have hclosing := hc.sockets user.socketId
    rw [if_pos rfl] at hclosing
    refine absurd ?_ ((hv p).2.2.2 user.socketId)
    rw [setProc_self]
    exact hclosing
  · obtain ⟨rfl, rfl⟩ := closing_next h.quiet hc he' hu
    exact ⟨_, hc.departed hk, hu, hrest⟩

/- What `disconnect` calls after the `DEL`. -/
def World.leaveCall (w : World) (p : Pid) (user : User) : List Call :=
  if ((w.procs p).ctxRoomId user.socketId).isNull then []
  else [.delRoomUserMembers (some user) ((w.procs p).ctxRoomId user.socketId) none]

theorem OnlineAt.leaveCalls (ho : OnlineAt w p user) :
    (w.procs p).leaveCalls user.socketId = .logoutDel user :: w.leaveCall p user := by
  unfold Proc.leaveCalls World.leaveCall
  rw [ho.entry]
  by_cases hr : ((w.procs p).ctxRoomId user.socketId).isNull = true
  · simp [hr]
  · simp [hr]

section

variable (hq : Quiescent w) (ho : OnlineAt w p user) (hd : Departed (w.procs p) z user.socketId)
include hq hd

theorem Departed.alone : Alone (w.setProc p z) p where
  outbox := by
    intro q
    by_cases hne : q = p
    · rw [hne, setProc_self, hd.outbox]
      exact (hq p).2.2.1
    · rw [setProc_ne w p q z hne]
      exact (hq q).2.2.1
  others := by
    intro q hne
    rw [setProc_ne w p q z hne, Proc.calls, (hq q).1, (hq q).2.1]
    rfl

theorem Departed.unclosing (q : Pid) (t : Str) : ((w.setProc p z).procs q).ws t ≠ some .closing := by
  by_cases hne : q = p
  · rw [hne, setProc_self, hd.sockets t]
    by_cases ht : t = user.socketId
    · simp [ht]
    · rw [if_neg ht]
      exact (hq p).2.2.2 t
  · rw [setProc_ne w p q z hne]
    exact (hq q).2.2.2 t

include ho

theorem Departed.calls : z.sent = .logoutDel user :: w.leaveCall p user ∧ z.answered = [] := by
  rw [hd.sent, hd.answered, ho.leaveCalls, (hq p).1]
  exact ⟨rfl, (hq p).2.1⟩

theorem Departed.noCloses : NoCloses (w.setProc p z) where
  logins := by
    intro q c hc
    by_cases hne : q = p
    · obtain ⟨hsent, hans⟩ := hd.calls hq ho
      rw [hne, setProc_self, Proc.calls, hsent, hans, World.leaveCall] at hc
      rcases List.mem_cons.mp hc with rfl | hc
      · rfl
      · split at hc
        · cases hc
        · rw [List.mem_singleton.mp hc]
          rfl
    · rw [(hd.alone hq).others q hne] at hc
      cases hc
  kicks := by
    intro q packet hp
    rw [(hd.alone hq).outbox q] at hp
    cases hp
  sockets := hd.unclosing hq

end

/-! ### Sessions that stay -/

/- Without the session nothing is under way. -/
def World.without (w : World) (p : Pid) (user : User) (z : Proc) : World :=
  (w.setProc p z).deleted p user []

section

variable (hq : Quiescent w) (hw : WF w) (ho : OnlineAt w p user)
  (hd : Departed (w.procs p) z user.socketId)

theorem without_procs (w : World) (p : Pid) (user : User) (z : Proc) :
    (w.without p user z).procs p = { z with sent := [] } := by
  rw [World.without, World.deleted, setProc_self, setProc_self]

theorem without_other {q : Pid} (hne : q ≠ p) : (w.without p user z).procs q = w.procs q := by
  rw [World.without, World.deleted, setProc_ne _ p q _ hne, setProc_ne w p q z hne]

theorem without_db {k : Str} (hk : k ≠ user.key) : (w.without p user z).db.get k = w.db.get k := by
  rcases run_cases (.logoutDel user) w.db k with hsame | hwrites
  · exact hsame
  · cases hwrites with
    | logout _ _ heq => exact absurd heq hk

theorem without_gone : (w.without p user z).db.get user.key = none := Store.del_get user.key w.db

include hd

theorem Departed.ws (q : Pid) (t : Str) : ((w.without p user z).procs q).ws t =
    if q = p ∧ t = user.socketId then some .closed else (w.procs q).ws t := by
  by_cases hne : q = p
  · rw [hne, without_procs]
    refine (hd.sockets t).trans ?_
    simp
  · rw [without_other hne, if_neg fun h => hne h.1]

theorem Departed.entry (q : Pid) (t : Str) : ((w.without p user z).procs q).userList.get t =
    if q = p ∧ t = user.socketId then none else (w.procs q).userList.get t := by
  by_cases hne : q = p
  · rw [hne, without_procs]
    refine (hd.users t).trans ?_
    simp
  · rw [without_other hne, if_neg fun h => hne h.1]

theorem Departed.noticed (q : Pid) (t : Str) :
    ((w.without p user z).procs q).noticed t = (w.procs q).noticed t := by
  by_cases hne : q = p
  · rw [hne, without_procs]
    exact hd.quiet.noticed t
  · rw [without_other hne]

include ho

theorem Departed.online_iff (hw : WF w) {q : Pid} {other : User} :
    OnlineAt (w.without p user z) q other ↔ OnlineAt w q other ∧ other.socketId ≠ user.socketId := by
  constructor
  · intro h
    have hnot : ¬ (q = p ∧ other.socketId = user.socketId) := by
      intro heq
      have hentry := h.entry
      rw [hd.entry, if_pos heq] at hentry
      cases hentry
    have hkey : other.key ≠ user.key := by
      intro heq
      have hrec := h.recorded
      rw [heq, without_gone] at hrec
      cases hrec
    have hother : OnlineAt w q other := by
      refine ⟨?_, ?_, ?_⟩
      · rw [← h.entry, hd.entry, if_neg hnot]
      · rw [← h.opened, hd.ws, if_neg hnot]
      · rw [← h.recorded, without_db hkey]
    refine ⟨hother, fun hs => hnot ⟨(ho.unique hother hw hs).1, hs⟩⟩
  · rintro ⟨h, hs⟩
    have hkey : other.key ≠ user.key := by
      intro heq
      have hsocket := h.socketOf
      rw [heq, ho.socketOf] at hsocket
      exact hs hsocket.symm
    refine ⟨?_, ?_, ?_⟩
    · rw [hd.entry, if_neg fun heq => hs heq.2]
      exact h.entry
    · rw [hd.ws, if_neg fun heq => hs heq.2]
      exact h.opened
    · rw [without_db hkey]
      exact h.recorded

theorem Departed.allOnline (hw : WF w) (hall : AllOnline w) : AllOnline (w.without p user z) := by
  intro k value hk hvalue
  have hne : k ≠ user.key := by
    rintro rfl
    rw [without_gone] at hvalue
    cases hvalue
  rw [without_db hne] at hvalue
  obtain ⟨q, other, hother, rfl⟩ := hall k value hk hvalue
  refine ⟨q, other, (hd.online_iff ho hw).mpr ⟨hother, fun hs => hne ?_⟩, rfl⟩
  rw [(ho.unique hother hw hs).2]

theorem Departed.findsOnly (hw : WF w) {u : Str} (hf : FindsOnly w u) :
    FindsOnly (w.without p user z) u :=
  fun q other h => hf q other ((hd.online_iff ho hw).mp h).1

omit ho
include hq

theorem Departed.quiescent : Quiescent (w.without p user z) := by
  intro q
  have halone := hd.alone hq
  have hclosing := hd.unclosing hq
  by_cases hne : q = p
  · subst hne
    rw [without_procs]
    refine ⟨rfl, hd.answered.trans (hq q).2.1, hd.outbox.trans (hq q).2.2.1, ?_⟩
    intro t
    have ht := hclosing q t
    rw [setProc_self] at ht
    exact ht
  · rw [without_other hne]
    exact hq q

end

/-- A call of a world at rest can be taken back. -/
theorem WF.unasked {c : Call} (hq : Quiescent w) (h : WF (w.asking p c)) : WF w := by
  have hconns : ∀ q, ((w.asking p c).procs q).conns = (w.procs q).conns := by
    intro q
    by_cases hne : q = p
    · rw [hne, World.asking, setProc_self]
      rfl
    · rw [World.asking, setProc_ne w p q _ hne]
  have husers : ∀ q, ((w.asking p c).procs q).userList = (w.procs q).userList := by
    intro q
    by_cases hne : q = p
    · rw [hne, World.asking, setProc_self]
      rfl
    · rw [World.asking, setProc_ne w p q _ hne]
  have hown : (w.asking p c).own = w.own := by
    funext q s
    rw [World.own, World.own, hconns]
  obtain ⟨ids, shape, owner, users, _, _, db⟩ := h
  simp only [hown, husers] at ids owner users db
  refine ⟨ids, shape, owner, users, ?_, ?_, db⟩
  · intro q c' hc
    rw [Proc.calls, (hq q).1, (hq q).2.1] at hc
    cases hc
  · intro q c' r hm
    rw [(hq q).2.1] at hm
    cases hm

/-! ### The end of the session -/

section

variable {d : Directory} {notice : Notice} {due : User → ℕ}

theorem Ended.refl (w : World) (notice : Notice) :
    Ended w w (directoryOf w.db) notice (fun _ => 0) fun _ => False where
  effect := rfl
  told := fun _ _ _ => ⟨[], (List.append_nil _).symm, List.forall_mem_nil _, rfl⟩
  silent := fun _ _ _ => ⟨[], (List.append_nil _).symm, List.forall_mem_nil _, rfl⟩
  stays := fun _ _ ho _ => ho
  others := fun _ _ _ => ⟨rfl, rfl⟩
  left := fun _ _ _ hno => hno.elim

/-- What the others are told after the departure they are told in the end. -/
theorem Departed.ended (hd : Departed (w.procs p) z user.socketId) (hw : WF w) (ho : OnlineAt w p user)
    (hdue : due user = 0)
    (h : Ended (w.without p user z) v d notice due fun _ => False) :
    Ended w v d notice due (· = user.socketId) := by
  have hreceives : ∀ {q t n}, Receives (w.without p user z) v notice q t n →
      Receives w v notice q t n := by
    rintro q t n ⟨news, hnews, hcarries, hn⟩
    rw [hd.noticed] at hnews
    exact ⟨news, hnews, hcarries, hn⟩
  refine ⟨h.effect, ?_, ?_, ?_, ?_, ?_⟩
  · intro q other hother
    by_cases hs : other.socketId = user.socketId
    · obtain ⟨rfl, rfl⟩ := ho.unique hother hw hs
      rw [hdue]
      exact hreceives (h.silent _ _ fun o ho' => ((hd.online_iff ho hw).mp ho').2)
    · exact hreceives (h.told q other ((hd.online_iff ho hw).mpr ⟨hother, hs⟩))
  · intro q t hno
    exact hreceives (h.silent q t fun o ho' => hno o ((hd.online_iff ho hw).mp ho').1)
  · intro q other hother hs
    exact h.stays q other ((hd.online_iff ho hw).mpr ⟨hother, hs⟩) not_false
  · intro q t ht
    obtain ⟨hentry, hws⟩ := h.others q t not_false
    rw [hd.entry, if_neg fun heq => ht heq.2] at hentry
    rw [hd.ws, if_neg fun heq => ht heq.2] at hws
    exact ⟨hentry, hws⟩
  · intro q other hother hs
    obtain ⟨rfl, rfl⟩ := ho.unique hother hw hs
    obtain ⟨hentry, hws⟩ := h.others q other.socketId not_false
    rw [hd.entry, if_pos ⟨rfl, rfl⟩] at hentry
    rw [hd.ws, if_pos ⟨rfl, rfl⟩] at hws
    exact ⟨hentry, hws⟩

theorem Quiescent.stays (hq : Quiescent w) (hrun : Run.Reach step (fun _ e => e.internal = true) w v) :
    v = w := by
  have halone : Alone w 0 := by
    refine ⟨fun q => (hq q).2.2.1, fun q _ => ?_⟩
    rw [Proc.calls, (hq q).1, (hq q).2.1]
    rfl
  rcases hrun.cases_head with rfl | ⟨e, u, he, hu, _⟩
  · rfl
  · rcases halone.next he hu with rfl | ⟨order, rfl⟩
    · obtain ⟨c, r, rest, hans, _⟩ := step_reply hu
      rw [(hq 0).2.1] at hans
      cases hans
    · obtain ⟨c, r, hx⟩ := exec_cases w u 0 _ hu
      have hsent := hx.sent
      rw [(hq 0).1] at hsent
      cases hsent

theorem without_asking (w : World) (p : Pid) (user : User) (z : Proc) (c : Call) :
    (w.setProc p z).deleted p user [c] = (w.without p user z).asking p c := by
  refine Eq.symm ((setProc_setProc
    { w.setProc p z with db := ((Call.logoutDel user).txn.run w.db).1 } p _ _).trans ?_)
  rw [without_procs]
  simp only [World.deleted, setProc_self]
  rfl

theorem without_members (room : Str) :
    members (w.without p user z).db room = members w.db room :=
  Store.membersOf_congr _ _ _ (run_kept (.logoutDel user) w.db (by simp [Call.writesTo]) _
    (member_has room))

/-- Whatever the order of the steps, the session is gone and the members are told. -/
theorem Leaves.ended (h : Leaves w p user e) (hreach : Reachable w) {s : SocketId}
    (hs : s.1 = user.socketId) {m : World} (hm : step w e = some m)
    (hrun : Run.Reach step (fun _ e => e.smooth = true) m v) (hv : Quiescent v) :
    Ended w v ((departureOps user.userId s (w.notedRoom p user.socketId)).foldl Directory.apply
        (directoryOf w.db)) (.roomOut user.userId)
      (fun other => if other.userId ∈ w.leftBehind p user then 1 else 0) (· = user.socketId) := by
  have hw := WF.initial.reach hreach
  obtain ⟨z, hd, hclose, hrest⟩ := h.closes hw hm hrun hv
  have hreachz : Reachable (w.setProc p z) :=
    .tail _ (.tail _ hreach trivial hm) trivial hclose
  have hinternal := ((hd.noCloses h.quiet h.session).reach hreachz hrest).2
  obtain ⟨hsent, hans⟩ := hd.calls h.quiet h.session
  obtain ⟨hto, hfrom⟩ := deleted_reach (hd.alone h.quiet) (by rw [setProc_self]; exact hsent)
    (by rw [setProc_self]; exact hans) hinternal hv
  have hquiet := hd.quiescent h.quiet
  have hlogout : directoryOf (w.without p user z).db =
      (directoryOf w.db).apply (.unregister user.userId s) := directory_logout user s hs
  have hself : user.userId ∉ w.leftBehind p user := by
    simp [World.leftBehind]
  refine hd.ended hw h.session (if_neg hself) ?_
  by_cases hr : ((w.procs p).ctxRoomId user.socketId).isNull = true
  · simp only [World.leaveCall, hr, if_true] at hfrom
    rw [hquiet.stays hfrom]
    have hend := Ended.refl (w.without p user z) (.roomOut user.userId)
    rw [hlogout] at hend
    simpa [World.leftBehind, World.notedRoom, hr, departureOps] using hend
  · have hone : w.leaveCall p user =
        [.delRoomUserMembers (some user) ((w.procs p).ctxRoomId user.socketId) none] := by
      simp [World.leaveCall, hr]
    rw [hone, without_asking] at hto hfrom
    have hreachd : Reachable ((w.without p user z).asking p _) :=
      hreachz.trans (hto.mono fun _ _ _ => trivial)
    have hwd := WF.initial.reach hreachd
    have hnodup := setsNodup_reachable hreachd
    have hfinds := h.finds ((w.procs p).ctxRoomId user.socketId).text (by simp [World.notedRoom, hr])
    have hend := leave_telling hquiet (WF.unasked hquiet hwd) (hd.allOnline h.session hw h.online)
      hnodup (fun u hu => hd.findsOnly h.session hw (hfinds u (without_members _ ▸ hu))) hv hwd hfrom
    rw [hlogout, without_members] at hend
    simpa [World.leftBehind, World.notedRoom, hr, departureOps] using hend

end

/-- A client that logs out or goes away takes its session with it, leaves the room it is
in, and the other members are told once; the other sessions stay. -/
theorem departures_carried_out (hreach : Reachable w) (h : Leaves w p user e) {s : SocketId}
    (hs : s.1 = user.socketId) :
    CarriedOut w e ((departureOps user.userId s (w.notedRoom p user.socketId)).foldl Directory.apply
        (directoryOf w.db)) (.roomOut user.userId)
      (fun other => if other.userId ∈ w.leftBehind p user then 1 else 0) (· = user.socketId) := by
  obtain ⟨y, hy, _⟩ := h.begins
  have hnext := Run.Reach.tail _ hreach trivial hy
  refine ⟨⟨_, hy, reachable_ends hnext, fun _ hv => reachable_rest hnext hv⟩, ?_⟩
  intro m v hm hrun hv
  exact h.ended hreach hs hm hrun hv

end

/- A goes, and B, who is in the same room on another process, is told. -/
theorem closing_told_to_other :
    CarriedOut bothInRoom (.peerClose 0 memberA.socketId)
      ((departureOps ['u'] ⟨socketIdOf ['A'], ⟨['A'], by decide, rfl⟩⟩ (some ['1'])).foldl
        Directory.apply (directoryOf bothInRoom.db)) (.roomOut ['u'])
      (fun other => if other.userId ∈ [['v']] then 1 else 0) (· = memberA.socketId) ∧
    OnlineAt bothInRoom 0 memberA ∧ OnlineAt bothInRoom 1 memberB := by
  obtain ⟨hreach, hquiet, hall, honA, honB, hnoted, _, hmembers, hfinds⟩ := bothInRoom_online
  have hroom : bothInRoom.notedRoom 0 memberA.socketId = some ['1'] := by
    rw [World.notedRoom, hnoted]
    rfl
  have hleaves : Leaves bothInRoom 0 memberA (.peerClose 0 memberA.socketId) := by
    refine ⟨hquiet, hall, honA, .close, ?_⟩
    rw [hroom]
    intro room heq
    rw [← Option.some.inj heq]
    exact hfinds
  have hbehind : bothInRoom.leftBehind 0 memberA = [['v']] := by
    rw [World.leftBehind, hroom]
    simp only [Option.toList_some, List.flatMap_cons, List.flatMap_nil, List.append_nil, hmembers]
    rfl
  have hdone := departures_carried_out hreach hleaves
    (s := ⟨socketIdOf ['A'], ⟨['A'], by decide, rfl⟩⟩) rfl
  rw [hbehind, hroom] at hdone
  exact ⟨hdone, honA, honB⟩

end NodeServer

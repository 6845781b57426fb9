import NodeServer.Proof.Lookup
import NodeServer.Proof.Responses
import NodeServer.Proof.RoomOps

/-! # The login gate

`getBaseRespond` records that a request came without a login, and leaves it to
each handler to stop there. Three of them do. -/

namespace NodeServer

open DBModelKeys

/-! ### One request on its own -/

/- A process with nothing in flight. -/
def Proc.alone (x : Proc) : Proc := { x with sent := [], answered := [], outbox := [] }

/- The tables of a world with nothing in flight, so that what follows on a
request is due to the request. -/
def World.alone (w : World) : World := { w with procs := fun p => (w.procs p).alone }

/- A request, and everything it gives rise to until all replies are delivered. -/
structure Processed (p : Pid) (s : Str) (req : Request) (now : ℕ) (w v : World) : Prop where
  run : ∃ m, step w.alone (.message p s req now) = some m ∧
    Run.Reach step (fun _ e => e.internal = true) m v
  done : ∀ q, (v.procs q).calls = []

def Proc.ctx (x : Proc) (s : Str) : Option (Str × Option Str × JsVal) :=
  (x.conns.get s).map fun c => (c.connectTtime, c.userId, c.roomId)

/- Nothing has come of the request but one response that asks for a login. -/
structure Gated (p : Pid) (s : Str) (req : Request) (route : Route) (w v : World) : Prop where
  db : v.db = w.db
  users : ∀ q, (v.procs q).userList = (w.procs q).userList
  ctx : ∀ q t, (v.procs q).ctx t = (w.procs q).ctx t
  forwarded : ∀ q, (v.procs q).outbox = []
  frames : ∃ resData : ResData, resData.id = req.id ∧ resData.route = route ∧
    resData.errno = 10002 ∧ ∀ q t, (v.procs q).frames t = (w.procs q).frames t ++
      if q = p ∧ t = s then [.respond resData] else []

/- The handlers that do nothing for an undefined user. -/
def Route.gated : Route → Bool
  | .heartbeat | .logout | .sendMsg => true
  | _ => false

theorem message_step (w : World) (p : Pid) (s : Str) (req : Request) (now : ℕ)
    (hws : (w.procs p).ws s = some .opened ∨ (w.procs p).ws s = some .closing) :
    step w (.message p s req now) =
      some (w.setProc p (react p (.message s req now) (w.procs p))) := by
  have hin : inputOf w (.message p s req now) = some (p, .message s req now) := by
    rcases hws with h | h
    · simp only [inputOf, h]
    · simp only [inputOf, h]
  simp only [step, hin, Option.map_some]
  rfl

/-- With nothing in flight the servers do nothing by themselves. -/
theorem idle_step (w : World) (e : Event) (he : e.internal = true)
    (hcalls : ∀ q, (w.procs q).calls = []) (hout : ∀ q, (w.procs q).outbox = []) :
    step w e = none := by
  have hqueues : ∀ q, (w.procs q).answered = [] ∧ (w.procs q).sent = [] := by
    intro q
    have hq := hcalls q
    simp only [Proc.calls, List.append_eq_nil_iff, List.map_eq_nil_iff] at hq
    exact hq
  cases e with
  | exec p outcome =>
    cases outcome with
    | done order => simp [step, execStep, (hqueues p).2]
    | failed message => cases he
  | reply p => simp [step, inputOf, (hqueues p).1]
  | deliver q n p => simp [step, inputOf, hout q]
  | _ => cases he

theorem idle_reach {w v : World} (hcalls : ∀ q, (w.procs q).calls = [])
    (hout : ∀ q, (w.procs q).outbox = [])
    (h : Run.Reach step (fun _ e => e.internal = true) w v) : v = w := by
  refine h.invariant (fun v => v = w) rfl ?_
  rintro u e u' rfl he hs
  rw [idle_step u e he hcalls hout] at hs
  cases hs

theorem sendRespond_open (x : Proc) (h : Handler) (hopen : x.ws h.socketId = some .opened) :
    x.sendRespond h false = (x.setConn h.socketId fun c =>
      { c with frames := c.frames ++ [.respond h.resData] }).settle h.socketId := by
  simp [Proc.sendRespond, Proc.wsSend, hopen]

theorem sendRespond_shut (x : Proc) (h : Handler) (isKick : Bool)
    (hshut : x.ws h.socketId ≠ some .opened) : x.sendRespond h isKick = x := by
  simp [Proc.sendRespond, Proc.wsSend, hshut]

theorem sendRespond_frames (x : Proc) (h : Handler) (hopen : x.ws h.socketId = some .opened)
    (t : Str) : (x.sendRespond h false).frames t =
      x.frames t ++ if t = h.socketId then [.respond h.resData] else [] := by
  obtain ⟨c, hc, _⟩ := Option.map_eq_some_iff.mp hopen
  rw [sendRespond_open x h hopen]
  simp only [Proc.settle, Proc.setConn, Proc.frames, Table.get_modify]
  by_cases ht : t = h.socketId
  · simp [ht, hc]
  · simp [ht]

theorem sendRespond_ctx (x : Proc) (h : Handler) (t : Str) :
    (x.sendRespond h false).ctx t = x.ctx t := by
  by_cases hopen : x.ws h.socketId = some .opened
  · rw [sendRespond_open x h hopen]
    simp only [Proc.settle, Proc.setConn, Proc.ctx, Table.get_modify]
    by_cases ht : t = h.socketId
    · subst ht
      cases x.conns.get h.socketId with
      | none => simp
      | some c => simp
    · simp [ht]
  · rw [sendRespond_shut x h false hopen]

/-! ### What each handler does without a login -/

section

variable {p : Pid} {s : Str} {req : Request} {now : ℕ} {route : Route} {x : Proc}

def needLogin (s : Str) (n : ℕ) (route : Route) : Handler :=
  ⟨s, ⟨n, route, 10002, "Need to login.".toList, .empty⟩⟩

/- The response of the handlers that answer without Redis. -/
def gateAnswer (s : Str) (n : ℕ) (route : Route) : Handler :=
  if route.gated then needLogin s n route else (needLogin s n route).withError 16105 notInRoom

/- The call of those that go on, with an undefined user. -/
def gateCall (s : Str) (req : Request) : Route → Option Call
  | .roomList => some (.roomListKeys none (needLogin s req.id .roomList))
  | .roomCreate => some (.addRoomIncr none (needLogin s req.id .roomCreate))
  | .roomClose => some (.delRoomKeys none req.roomId (needLogin s req.id .roomClose))
  | .roomIn => some (.addRoomUserKeys none req.roomId (needLogin s req.id .roomIn))
  | _ => none

theorem handle_gate (hroute : route ≠ .login) (huser : x.userList.get s = none)
    (hroom : (x.ctxRoomId s).isNull = true) :
    x.handle p s route req now = match gateCall s req route with
      | some c => x.issue c
      | none => x.sendRespond (gateAnswer s req.id route) false := by
  have hu : x.getUserWithSocket s = none := huser
  have hbase : x.getBaseRespond s req.id route = needLogin s req.id route := by
    simp only [Proc.getBaseRespond, hu]
    rfl
  cases route with
  | login => exact absurd rfl hroute
  | roomOut =>
    simp only [Proc.handle, hroom, hbase, if_true]
    rfl
  | sendLiveChat =>
    simp only [Proc.handle, hroom, hbase, if_true]
    rfl
  | _ =>
    simp only [Proc.handle, hu, hbase]
    rfl

/-- The callback of a call made for an undefined user throws. -/
theorem gateCall_spec {c : Call} (hc : gateCall s req route = some c) :
    (∃ cmd, c.txn = .one cmd) ∧ ∀ r, x.onReply p c r = x := by
  cases route with
  | roomList =>
    cases hc
    exact ⟨⟨_, rfl⟩, fun _ => rfl⟩
  | roomCreate =>
    cases hc
    exact ⟨⟨_, rfl⟩, fun _ => rfl⟩
  | roomClose =>
    cases hc
    exact ⟨⟨_, rfl⟩, fun _ => rfl⟩
  | roomIn =>
    cases hc
    exact ⟨⟨_, rfl⟩, fun _ => rfl⟩
  | _ => cases hc

end

/- The request reaches the handler of a route other than login, on a connection
that has not logged in and has no room. -/
structure Ungated (w : World) (p : Pid) (s : Str) (req : Request) (route : Route) : Prop where
  arrives : (w.procs p).ws s = some .opened ∨ (w.procs p).ws s = some .closing
  routed : getRouterByName req.route = some (.handler route)
  route : route ≠ .login
  user : (w.procs p).userList.get s = none
  room : ((w.procs p).ctxRoomId s).isNull = true

section

variable {w : World} {p : Pid} {s : Str} {req : Request} {route : Route} (now : ℕ)

theorem Ungated.step (h : Ungated w p s req route) :
    step w.alone (.message p s req now) = some (w.alone.setProc p
      (match gateCall s req route with
        | some c => (w.procs p).alone.issue c
        | none => (w.procs p).alone.sendRespond (gateAnswer s req.id route) false)) := by
  have hroom : ((w.procs p).alone.ctxRoomId s).isNull = true := h.room
  have huser : (w.procs p).alone.userList.get s = none := h.user
  have hreact : react p (.message s req now) (w.alone.procs p) =
      (w.procs p).alone.handle p s route req now := by
    simp only [react, Proc.onMessage, h.routed]
    rfl
  rw [message_step w.alone p s req now h.arrives, hreact, handle_gate h.route huser hroom]

/-- A handler that goes on with an undefined user never answers. -/
theorem Ungated.unanswered (h : Ungated w p s req route) {c : Call}
    (hc : gateCall s req route = some c) :
    ∃ v, Processed p s req now w v ∧ ∀ q t, (v.procs q).frames t = (w.procs q).frames t := by
  obtain ⟨⟨cmd, htxn⟩, hreply⟩ := gateCall_spec (p := p) (x := (w.procs p).alone) hc
  have hstep := h.step now
  rw [hc] at hstep
  have horder : (c.txn.run w.db).2.inOrder (cmd.run w.db).2.elements = some (cmd.run w.db).2 := by
    rw [htxn]
    exact Store.run_inOrder cmd w.db
  have hself := setProc_self w.alone p ((w.procs p).alone.issue c)
  have hserved := serve_call (w.alone.setProc p ((w.procs p).alone.issue c)) p c [] _ _
    (by rw [hself]; rfl) (by rw [hself]; rfl) horder
  rw [hself, setProc_setProc] at hserved
  have hback : ({ (w.procs p).alone.issue c with sent := [] } : Proc).onReply p c
      (cmd.run w.db).2 = (w.procs p).alone := hreply _
  rw [hback] at hserved
  refine ⟨_, ⟨⟨_, hstep, Run.reach_of_runs _ _ _ ?_ hserved⟩, ?_⟩, ?_⟩
  · intro e he _
    simp only [List.mem_cons, List.not_mem_nil, or_false] at he
    rcases he with rfl | rfl
    · rfl
    · rfl
  · intro q
    by_cases hq : q = p
    · subst hq
      simp [World.setProc, Proc.alone, Proc.calls]
    · simp [World.setProc, hq, World.alone, Proc.alone, Proc.calls]
  · intro q t
    by_cases hq : q = p
    · subst hq
      simp [World.setProc, Proc.alone, Proc.frames]
    · simp [World.setProc, hq, World.alone, Proc.alone, Proc.frames]

/- The world after a handler has answered without Redis. -/
def World.answered (w : World) (p : Pid) (h : Handler) : World :=
  w.alone.setProc p ((w.procs p).alone.sendRespond h false)

theorem answered_idle (w : World) (p : Pid) (h : Handler) (q : Pid) :
    ((w.answered p h).procs q).calls = [] ∧ ((w.answered p h).procs q).outbox = [] ∧
      ((w.answered p h).procs q).userList = (w.procs q).userList := by
  by_cases hq : q = p
  · subst hq
    have hemits := Emits.sendRespond (w.procs q).alone h false
    simp only [World.answered, setProc_self, Proc.calls]
    rw [hemits.sent, hemits.answered, hemits.outbox, hemits.userList]
    exact ⟨rfl, rfl, rfl⟩
  · simp only [World.answered, setProc_ne _ _ _ _ hq]
    exact ⟨rfl, rfl, rfl⟩

/-- A handler that answers without Redis is done at once. -/
theorem Ungated.processed_iff (h : Ungated w p s req route) (hc : gateCall s req route = none)
    (v : World) : Processed p s req now w v ↔ v = w.answered p (gateAnswer s req.id route) := by
  have hstep := h.step now
  rw [hc] at hstep
  have hidle := answered_idle w p (gateAnswer s req.id route)
  constructor
  · intro hp
    obtain ⟨m, hm, hrun⟩ := hp.run
    rw [hstep] at hm
    obtain rfl := Option.some.inj hm
    exact idle_reach (fun q => (hidle q).1) (fun q => (hidle q).2.1) hrun
  · rintro rfl
    exact ⟨⟨_, hstep, .refl⟩, fun q => (hidle q).1⟩

theorem gateAnswer_socketId (s : Str) (n : ℕ) (route : Route) :
    (gateAnswer s n route).socketId = s := by
  unfold gateAnswer
  split
  · rfl
  · rfl

theorem answered_frames (w : World) (p : Pid) (h : Handler)
    (hopen : (w.procs p).ws h.socketId = some .opened) (q : Pid) (t : Str) :
    ((w.answered p h).procs q).frames t = (w.procs q).frames t ++
      if q = p ∧ t = h.socketId then [.respond h.resData] else [] := by
  by_cases hq : q = p
  · subst hq
    simp only [World.answered, setProc_self, true_and]
    exact sendRespond_frames (w.procs q).alone h hopen t
  · simp only [World.answered, setProc_ne _ _ _ _ hq, hq, false_and, if_false, List.append_nil]
    rfl

theorem answered_shut (w : World) (p : Pid) (h : Handler)
    (hshut : (w.procs p).ws h.socketId ≠ some .opened) (q : Pid) (t : Str) :
    ((w.answered p h).procs q).frames t = (w.procs q).frames t := by
  by_cases hq : q = p
  · subst hq
    simp only [World.answered, setProc_self]
    rw [sendRespond_shut (w.procs q).alone h false hshut]
    rfl
  · simp only [World.answered, setProc_ne _ _ _ _ hq]
    rfl

theorem answered_gated (h : Ungated w p s req route) (hgate : route.gated = true)
    (hopen : (w.procs p).ws s = some .opened) :
    Gated p s req route w (w.answered p (gateAnswer s req.id route)) where
  db := rfl
  users q := (answered_idle w p _ q).2.2
  ctx q t := by
    by_cases hq : q = p
    · subst hq
      simp only [World.answered, setProc_self]
      exact sendRespond_ctx (w.procs q).alone _ t
    · simp only [World.answered, setProc_ne _ _ _ _ hq]
      rfl
  forwarded q := (answered_idle w p _ q).2.1
  frames := by
    have hans : gateAnswer s req.id route = needLogin s req.id route := by
      simp only [gateAnswer, hgate, if_true]
    rw [hans]
    exact ⟨_, rfl, rfl, rfl, answered_frames w p (needLogin s req.id route) hopen⟩

theorem Gated.one_frame {v : World} (h : Gated p s req route w v) :
    ∃ resData : ResData, resData.errno = 10002 ∧
      (v.procs p).frames s = (w.procs p).frames s ++ [.respond resData] := by
  obtain ⟨resData, _, _, herrno, hframes⟩ := h.frames
  refine ⟨resData, herrno, ?_⟩
  rw [hframes p s]
  simp

end

/-- A request without a login is answered with the login error, and has no other
effect, exactly when its handler looks at the user before it goes on and the
socket can still be written to. -/
theorem login_gate_iff (w : World) (p : Pid) (s : Str) (req : Request) (now : ℕ) (route : Route)
    (hreq : Ungated w p s req route) :
    (∀ v, Processed p s req now w v → Gated p s req route w v) ↔
      (w.procs p).ws s = some .opened ∧ route.gated = true := by
  constructor
  · intro hall
    cases hc : gateCall s req route with
    | some c =>
      obtain ⟨v, hv, hsame⟩ := hreq.unanswered now hc
      obtain ⟨resData, _, hone⟩ := (hall v hv).one_frame
      rw [hsame p s] at hone
      exact absurd hone (by simp)
    | none =>
      have hv := (hreq.processed_iff now hc _).mpr rfl
      obtain ⟨resData, herrno, hone⟩ := (hall _ hv).one_frame
      have hsock := gateAnswer_socketId s req.id route
      by_cases hopen : (w.procs p).ws s = some .opened
      · refine ⟨hopen, ?_⟩
        by_contra hgate
        rw [answered_frames w p _ (by rw [hsock]; exact hopen)] at hone
        simp [gateAnswer, hgate, Handler.withError, needLogin] at hone
        rw [← hone] at herrno
        cases herrno
      · rw [answered_shut w p _ (by rw [hsock]; exact hopen)] at hone
        exact absurd hone (by simp)
  · rintro ⟨hopen, hgate⟩ v hv
    have hc : gateCall s req route = none := by
      cases route <;> first | rfl | cases hgate
    rw [(hreq.processed_iff now hc v).mp hv]
    exact answered_gated hreq hgate hopen

/-! ### A heartbeat and a room request on a new connection -/

def freshWorld : World := Run.ends step World.initial [.connect 0 ['A'] 1]

theorem fresh_ungated (route : Route) (hroute : route ≠ .login)
    (hrouted : getRouterByName route.name = some (.handler route)) :
    Ungated freshWorld 0 (socketIdOf ['A']) (route.request none .undefined) route where
  arrives := by decide
  routed := hrouted
  route := hroute
  user := by decide
  room := by decide

theorem login_gate_heartbeat :
    (∀ v, Processed 0 (socketIdOf ['A']) (Route.heartbeat.request none .undefined) 2 freshWorld v →
      Gated 0 (socketIdOf ['A']) (Route.heartbeat.request none .undefined) .heartbeat freshWorld v) ↔
    (freshWorld.procs 0).ws (socketIdOf ['A']) = some .opened ∧ Route.heartbeat.gated = true :=
  login_gate_iff freshWorld 0 _ _ 2 .heartbeat (fresh_ungated .heartbeat (by decide) (by decide))

/-- `RoomCreate` goes on without a login, and is never answered. -/
theorem room_created_without_login :
    ¬ ∀ (w : World) (p : Pid) (s : Str) (req : Request) (now : ℕ) (route : Route), Reachable w →
      Ungated w p s req route → ∀ v, Processed p s req now w v → Gated p s req route w v := by
  intro hall
  have hreq := fresh_ungated .roomCreate (by decide) (by decide)
  have hreach : Reachable freshWorld := Run.reach_ends _ (by decide)
  obtain ⟨v, hv, hsame⟩ := hreq.unanswered 2 rfl
  obtain ⟨resData, _, hone⟩ := (hall _ _ _ _ 2 _ hreach hreq v hv).one_frame
  rw [hsame] at hone
  exact absurd hone (by simp)

end NodeServer

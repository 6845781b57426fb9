import NodeServer.Proof.Responses
import NodeServer.Proof.Traces

/-! # Responses belong to requests

A client knows the request a response answers by its connection, its id and its
route. The handler of a request has one call in flight at a time and hands the
request on to the next call or answers it, so no request is answered twice and no
response comes without one. -/

namespace NodeServer

/-! ### The request a call works for -/

structure Ticket where
  socketId : Str
  id : ℕ
  route : Route
  deriving DecidableEq

def ResData.ticket (s : Str) (resData : ResData) : Ticket := ⟨s, resData.id, resData.route⟩

def Handler.ticket (h : Handler) : Ticket := h.resData.ticket h.socketId

def LoginReq.ticket (l : LoginReq) : Ticket := ⟨l.user.socketId, l.id, .login⟩

def Call.ticket (c : Call) : Option Ticket :=
  (c.login.map LoginReq.ticket).or (c.handler.map Handler.ticket)

def Request.ticket (s : Str) (req : Request) : Option Ticket :=
  match getRouterByName req.route with
  | some (.handler route) => some ⟨s, req.id, route⟩
  | _ => none

/- The request an input starts or goes on with. -/
def Input.ticket : Input → Option Ticket
  | .message s req _ => req.ticket s
  | .reply c _ => c.ticket
  | _ => none

/- The request an event brings to a process. -/
def Event.ticket (p : Pid) : Event → Option Ticket
  | .message q s req _ => if q = p then req.ticket s else none
  | _ => none

/- The requests a run has brought to a process. -/
def requestsTo (p : Pid) (tr : List (World × Event)) : List Ticket :=
  tr.filterMap fun a => a.2.ticket p

/- The requests the responses on a connection answer. -/
def Proc.responded (x : Proc) (s : Str) : List Ticket := (x.responses s).map (ResData.ticket s)

/- The requests under way: one entry for each call that works for one. -/
def Proc.working (x : Proc) : List Ticket := x.calls.filterMap Call.ticket

/-! ### An input hands its request on -/

theorem fanOut_ticket (notice : Notice) (users : List Str) :
    (fanOut notice users).filterMap Call.ticket = [] := by
  rw [List.filterMap_eq_nil_iff]
  intro c hc
  obtain ⟨u, _, rfl⟩ := List.mem_map.mp hc
  rfl

theorem doneCalls_ticket (p : Pid) (x : Proc) (next : LookupFor) (userList : List User) :
    (x.doneCalls p userList next).filterMap Call.ticket =
      (next.login.map LoginReq.ticket).toList := by
  cases next with
  | notice notice after =>
    have hdels : ((userList.filter (x.fails p)).map Call.logoutDel).filterMap Call.ticket = [] := by
      rw [List.filterMap_eq_nil_iff]
      intro c hc
      obtain ⟨user, _, rfl⟩ := List.mem_map.mp hc
      rfl
    simp only [Proc.doneCalls, List.filterMap_append, hdels, List.nil_append]
    cases after with
    | _ => rfl
  | loginKick l => rfl
  | sendMsg user msg => exact fanOut_ticket _ _

theorem loopCalls_ticket (p : Pid) (x : Proc) (next : LookupFor) (userList : List User)
    (res : List Str) :
    (x.loopCalls p next userList res).filterMap Call.ticket =
      (next.login.map LoginReq.ticket).toList := by
  cases res with
  | nil => exact doneCalls_ticket p x next userList
  | cons key rest =>
    cases next with
    | notice notice after =>
      cases after with
      | _ => rfl
    | _ => rfl

theorem leaveCalls_ticket (x : Proc) (s : Str) :
    (x.leaveCalls s).filterMap Call.ticket = [] := by
  unfold Proc.leaveCalls
  split
  · rfl
  · split
    · rfl
    · rfl

/- What the input goes on with and what it answers. -/
def Proc.handedOn (p : Pid) (x : Proc) (i : Input) : List Ticket :=
  (x.issued p i).filterMap Call.ticket ++ ((x.answers i).map Handler.ticket).toList

@[simp] theorem Handler.ticket_result (h : Handler) (data : RespData) (err : Option Str) :
    (h.result data err).ticket = h.ticket := by
  cases err with
  | _ => rfl

@[simp] theorem loginAnswer_ticket (x : Proc) (s : Str) (n : ℕ) :
    (x.loginAnswer s n).ticket = ⟨s, n, .login⟩ := by
  obtain ⟨hs, hid, hroute⟩ := loginAnswer_request x s n
  simp only [Handler.ticket, ResData.ticket, hs, hid, hroute]

@[simp] theorem getBaseRespond_ticket (x : Proc) (s : Str) (n : ℕ) (route : Route) :
    (x.getBaseRespond s n route).ticket = ⟨s, n, route⟩ := by
  obtain ⟨hs, hid, hroute⟩ := getBaseRespond_request x s n route
  simp only [Handler.ticket, ResData.ticket, hs, hid, hroute]

@[simp] theorem Handler.ticket_withError (h : Handler) (errno : ℕ) (errmsg : Str) :
    (h.withError errno errmsg).ticket = h.ticket := rfl

theorem Call.ticket_of_handler {c : Call} {h : Handler} (hc : c.handler = some h) :
    c.ticket = some h.ticket := by
  cases c with
  | lookupKeys => cases hc
  | lookupHash => cases hc
  | loginSet => cases hc
  | logoutDel => cases hc
  | _ => simp [Call.ticket, Call.login, hc]

/- The calls of a lookup go on with its login. -/
theorem lookup_handedOn (p : Pid) (x : Proc) {c : Call} (r : Store.Reply) {next : LookupFor}
    (hc : (∃ userId, c = .lookupKeys userId next) ∨
      ∃ key rest userList, c = .lookupHash key rest userList next) :
    (x.handedOn p (.reply c r)).Sublist c.ticket.toList := by
  simp only [Proc.handedOn, Proc.issued, Proc.answers]
  rcases hc with ⟨userId, rfl⟩ | ⟨key, rest, userList, rfl⟩
  · have hcalls : (x.replyCalls p (.lookupKeys userId next) r).filterMap Call.ticket =
        (next.login.map LoginReq.ticket).toList := by
      cases r with
      | array res => exact loopCalls_ticket p x next [] res
      | _ => exact doneCalls_ticket p x next []
    rw [hcalls]
    simp [Proc.replyAnswer, Call.ticket, Call.login, Call.handler]
  · cases r with
    | hash res =>
      have hcalls := loopCalls_ticket p x next (userList ++ [x.getUserWithRedis res]) rest
      simp [Proc.replyCalls, Proc.replyAnswer, hcalls, Call.ticket, Call.login, Call.handler]
    | _ => simp [Proc.replyCalls, Proc.replyAnswer]

/- What a callback does with the handler it works for: one call goes on with it, behind the
lookups of a notice, or it is answered, or dropped. -/
inductive HandsOn (h : Handler) : List Call → Option Handler → Prop
  | next {calls : List Call} {c : Call} (others : calls.filterMap Call.ticket = [])
      (handler : c.handler = some h) : HandsOn h (calls ++ [c]) none
  | answered {calls : List Call} (others : calls.filterMap Call.ticket = []) (data : RespData)
      (err : Option Str) : HandsOn h calls (some (h.result data err))
  | dropped : HandsOn h [] none

theorem HandsOn.single {h : Handler} {c : Call} (handler : c.handler = some h) : HandsOn h [c] none :=
  @HandsOn.next h [] c rfl handler

theorem HandsOn.sublist {h : Handler} {calls : List Call} {answer : Option Handler}
    (hh : HandsOn h calls answer) :
    (calls.filterMap Call.ticket ++ (answer.map Handler.ticket).toList).Sublist [h.ticket] := by
  cases hh with
  | next others handler => simp [others, Call.ticket_of_handler handler]
  | answered others data err => simp [others]
  | dropped => exact List.nil_sublist _

/-- The callback of a call goes on with the handler of the call, answers it or drops it. -/
theorem reply_handsOn (p : Pid) (x : Proc) {c : Call} {h : Handler} (r : Store.Reply)
    (hc : c.handler = some h) : HandsOn h (x.replyCalls p c r) (x.replyAnswer c r) := by
  cases c with
  | lookupKeys => cases hc
  | lookupHash => cases hc
  | loginSet => cases hc
  | logoutDel => cases hc
  | addRoomIncr user =>
    cases hc
    cases user with
    | none => exact .dropped
    | some user =>
      cases r with
      | error err => exact .answered rfl _ _
      | _ => exact .single rfl
  | addRoomSet =>
    cases hc
    exact .answered rfl _ _
  | delRoomKeys user =>
    cases hc
    cases user with
    | none => exact .dropped
    | some user =>
      cases r with
      | array res =>
        cases res with
        | nil => exact .answered rfl _ _
        | cons key rest => exact .single rfl
      | _ => exact .answered rfl _ _
  | delRoomExec =>
    cases hc
    cases r with
    | exec replies =>
      cases replies with
      | nil => exact .answered rfl _ _
      | cons reply rest =>
        cases reply with
        | array res => exact .answered (fanOut_ticket _ _) _ _
        | _ => exact .answered rfl _ _
    | _ => exact .answered rfl _ _
  | broadcastKeys user =>
    cases hc
    cases r with
    | array res =>
      cases res with
      | nil =>
        cases user with
        | none => exact .dropped
        | some user => exact .answered rfl _ _
      | cons key rest => exact .single rfl
    | _ =>
      cases user with
      | none => exact .dropped
      | some user => exact .answered rfl _ _
  | broadcastMembers user =>
    cases hc
    cases user with
    | none => exact .dropped
    | some user =>
      cases r with
      | array res => exact .answered (fanOut_ticket _ _) _ _
      | _ => exact .answered rfl _ _
  | roomListKeys user =>
    cases hc
    cases user with
    | none => exact .dropped
    | some user =>
      cases r with
      | array res =>
        cases res with
        | nil => exact .answered rfl _ _
        | cons key rest => exact .single rfl
      | _ => exact .dropped
  | roomListGet key rest =>
    cases hc
    cases r with
    | bulk res =>
      cases rest with
      | nil => exact .answered rfl _ _
      | cons key rest => exact .single rfl
    | _ =>
      cases rest with
      | _ => exact .dropped
  | addRoomUserKeys user =>
    cases hc
    cases user with
    | none => exact .dropped
    | some user =>
      cases r with
      | array res =>
        cases res with
        | nil => exact .answered rfl _ _
        | cons key rest => exact .single rfl
      | _ => exact .answered rfl _ _
  | addRoomUserMembers =>
    cases hc
    cases r with
    | array res => exact .next (fanOut_ticket _ _) rfl
    | _ => exact .single rfl
  | addRoomUserAdd =>
    cases hc
    exact .answered rfl _ _
  | delRoomUserMembers user roomId =>
    cases hc
    cases user with
    | none => exact .dropped
    | some user =>
      cases r with
      | array res => exact .next (fanOut_ticket _ _) rfl
      | _ => exact .single rfl
  | delRoomUserRem =>
    cases hc
    exact .answered rfl _ _

/-- The callback of a call goes on with its request, answers it or drops it. -/
theorem reply_handedOn (p : Pid) (x : Proc) (c : Call) (r : Store.Reply) :
    (x.handedOn p (.reply c r)).Sublist c.ticket.toList := by
  cases hc : c.handler with
  | some h =>
    rw [Call.ticket_of_handler hc]
    exact (reply_handsOn p x r hc).sublist
  | none =>
    cases c with
    | lookupKeys userId next => exact lookup_handedOn p x r (.inl ⟨userId, rfl⟩)
    | lookupHash key rest userList next => exact lookup_handedOn p x r (.inr ⟨key, rest, userList, rfl⟩)
    | loginSet l =>
      show [((x.addUser l.user).loginAnswer l.user.socketId l.id).ticket].Sublist [l.ticket]
      rw [loginAnswer_ticket]
      exact List.Sublist.refl _
    | logoutDel user => exact List.nil_sublist _
    -- A connection that has gone leaves its room for no request.
    | delRoomUserMembers user roomId h =>
      cases hc
      cases user with
      | none => exact List.nil_sublist _
      | some user =>
        cases r with
        | array res =>
          show (List.filterMap Call.ticket (fanOut (.roomOut user.userId) _ ++
            [Call.delRoomUserRem user roomId none]) ++ []).Sublist []
          rw [List.append_nil, List.filterMap_append, fanOut_ticket]
          exact List.nil_sublist _
        | _ => exact List.nil_sublist _
    | delRoomUserRem user roomId h =>
      cases hc
      exact List.nil_sublist _
    | _ => cases hc

/-- A request is answered at once, handed on to a call or dropped. -/
theorem request_handedOn (p : Pid) (x : Proc) (s : Str) (req : Request) (now : ℕ) (route : Route) :
    ((x.requestCalls p s req now route).filterMap Call.ticket ++
      ((x.requestAnswer s req route).map Handler.ticket).toList).Sublist [⟨s, req.id, route⟩] := by
  simp only [Proc.requestCalls, Proc.requestAnswer]
  cases route with
  | login =>
    cases req.userId with
    | none => simp
    | some userId =>
      cases x.getUserWithSocket s with
      | none => simp [Call.ticket, Call.login, LookupFor.login, LoginReq.ticket, createUserWithLogin]
      | some user => simp
  | roomOut =>
    by_cases hnull : (x.ctxRoomId s).isNull = true
    · simp [hnull]
    · simp [hnull, Call.ticket, Call.login, Call.handler]
  | sendLiveChat =>
    by_cases hnull : (x.ctxRoomId s).isNull = true
    · simp [hnull]
    · simp [hnull, Call.ticket, Call.login, Call.handler]
  | sendMsg =>
    cases x.getUserWithSocket s with
    | none => simp
    | some user =>
      cases req.toUserId with
      | none => simp
      | some toUserId => simp [Call.ticket, Call.login, Call.handler, LookupFor.login]
  | _ => simp [Call.ticket, Call.login, Call.handler]

theorem input_handedOn (p : Pid) (x : Proc) (i : Input) :
    (x.handedOn p i).Sublist i.ticket.toList := by
  cases i with
  | message s req now =>
    simp only [Proc.handedOn, Proc.issued, Proc.answers, Input.ticket, Request.ticket]
    cases hr : getRouterByName req.route with
    | none =>
      simp only
      split
      · exact List.nil_sublist _
      · simp [leaveCalls_ticket]
    | some entry =>
      cases entry with
      | inherited => exact List.nil_sublist _
      | handler route => exact request_handedOn p x s req now route
  | reply c r => exact reply_handedOn p x c r
  | wsError s => simp [Proc.handedOn, Proc.issued, Proc.answers, leaveCalls_ticket]
  | wsClose s => simp [Proc.handedOn, Proc.issued, Proc.answers, leaveCalls_ticket]
  | _ => exact List.nil_sublist _

/-! ### Runs -/

/- The responses and the calls at work are for requests received. -/
def Matched (tr : List (World × Event)) (w : World) : Prop :=
  ∀ p t, ((w.procs p).responded t.socketId).count t + (w.procs p).working.count t ≤
    (requestsTo p tr).count t

section

variable {w v : World} {e : Event} {p : Pid} {i : Input} {x : Proc} {tr : List (World × Event)}

theorem requestsTo_snoc (q : Pid) (tr : List (World × Event)) (w : World) (e : Event) :
    requestsTo q (tr ++ [(w, e)]) = requestsTo q tr ++ (e.ticket q).toList := by
  simp only [requestsTo, List.filterMap_append]
  cases he : e.ticket q with
  | _ => simp [he]

/-- The request an input goes on with was brought by its event or is that of the
call whose callback runs. -/
theorem Handled.ticket (h : Handled w v e p i x) :
    i.ticket.toList = (e.ticket p).toList ++ (i.replied.map Prod.fst).filterMap Call.ticket := by
  have harr := h.arrives
  cases i with
  | connect t now =>
    obtain ⟨suffix, rfl, _⟩ := harr
    rfl
  | message t req now =>
    obtain ⟨rfl, _⟩ := harr
    simp [Event.ticket, Input.ticket, Input.replied]
  | reply c r =>
    obtain ⟨rfl, _⟩ := harr
    cases hc : c.ticket with
    | _ => simp [Event.ticket, Input.ticket, Input.replied, hc]
  | packet packet =>
    obtain ⟨_, q, n, rfl, _⟩ := harr
    rfl
  | _ =>
    obtain ⟨rfl, _⟩ := harr
    rfl

theorem written_ticket (x : Proc) (s : Str) (answer : Option Handler) (t : Ticket) :
    ((x.written s answer).map (ResData.ticket s)).count t ≤
      ((answer.map Handler.ticket).toList).count t := by
  cases answer with
  | none => simp [Proc.written]
  | some h =>
    simp only [Proc.written]
    split
    · rename_i hs
      simp [Handler.ticket, hs.1]
    · simp

theorem Matched.executed {c : Call} {r : Store.Reply} (hm : Matched tr w)
    (h : Executed w v e p c r) : Matched (tr ++ [(w, e)]) v := by
  intro q t
  have hconns : (v.procs q).conns = (w.procs q).conns := by
    by_cases hq : q = p
    · subst hq
      exact h.conns
    · rw [h.others q hq]
  have hold := hm q t
  rw [requestsTo_snoc, List.count_append]
  simp only [Proc.responded, Proc.responses, Proc.working, hconns, h.calls q]
  exact Nat.le_add_right_of_le hold

theorem Matched.handled (hm : Matched tr w) (hw : WF w) (h : Handled w v e p i x) :
    Matched (tr ++ [(w, e)]) v := by
  intro q t
  have hold := hm q t
  rw [requestsTo_snoc, List.count_append]
  by_cases hq : q = p
  · subst hq
    obtain ⟨hbefore, hafter⟩ := h.calls_issued hw
    have hon := (input_handedOn q x i).count_le t
    have hwritten := written_ticket x t.socketId (x.answers i) t
    rw [h.ticket] at hon
    simp only [Proc.responded, h.responses hw, Proc.working, hbefore, hafter, List.map_append,
      List.filterMap_append, List.count_append, Proc.handedOn] at hold hon ⊢
    omega
  · obtain ⟨hconns, _, hsent, hans⟩ := h.other_conns q hq
    simp only [Proc.responded, Proc.responses, Proc.working, Proc.calls, hconns, hsent, hans] at hold ⊢
    exact Nat.le_add_right_of_le hold

/-- On every run and every connection there are at most as many responses with an id
and a route as there were requests with them, also when the requests still under way
are counted as answered. -/
theorem requests_answered_at_most_once (h : Run.Path step World.initial tr w) (p : Pid)
    (t : Ticket) :
    ((w.procs p).responded t.socketId).count t + (w.procs p).working.count t ≤
      (requestsTo p tr).count t := by
  have hboth : WF w ∧ Matched tr w := by
    refine Run.Path.invariant (fun tr w => WF w ∧ Matched tr w) ⟨WF.initial, ?_⟩ ?_ h
    · intro q t
      exact Nat.zero_le _
    · rintro tr v e v' ⟨hw, hm⟩ hs
      refine ⟨hw.step hs, ?_⟩
      rcases step_cases v v' e hs with ⟨q, c, r, hx⟩ | ⟨q, i, x, hx⟩
      · exact hm.executed hx
      · exact hm.handled hw hx
  exact hboth.2 p t

end

/- A login is answered, and a room is being created under the same id. -/
def answeredTrace : List Event :=
  [.connect 0 ['A'] 1, .message 0 (socketIdOf ['A']) (loginRequest ['u']) 2, .exec 0 (.done []),
    .reply 0, .exec 0 (.done []), .reply 0, .exec 0 (.done []), .reply 0,
    .message 0 (socketIdOf ['A']) (Route.roomCreate.request none .undefined) 3]

theorem login_answered_once :
    ((Run.ends step World.initial answeredTrace).procs 0).responded (socketIdOf ['A']) =
        [⟨socketIdOf ['A'], 1, .login⟩] ∧
      ((Run.ends step World.initial answeredTrace).procs 0).working =
        [⟨socketIdOf ['A'], 1, .roomCreate⟩] ∧
      (((Run.ends step World.initial answeredTrace).procs 0).responded (socketIdOf ['A'])).count
          ⟨socketIdOf ['A'], 1, .login⟩ +
        ((Run.ends step World.initial answeredTrace).procs 0).working.count
          ⟨socketIdOf ['A'], 1, .login⟩ ≤
        (requestsTo 0 (Run.steps step World.initial answeredTrace)).count
          ⟨socketIdOf ['A'], 1, .login⟩ :=
  ⟨by decide +kernel, by decide +kernel,
    requests_answered_at_most_once (Run.path_ends answeredTrace (by decide +kernel)) 0
      ⟨socketIdOf ['A'], 1, .login⟩⟩

end NodeServer

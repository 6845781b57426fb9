import NodeServer.Proof.WellFormed

/-! # The calls an input issues

`Origin` says for what reason a call can be issued; `issued` lists the calls of
an input, in order. -/

namespace NodeServer

/-! ### Callbacks -/

/- The calls of the continuation of a lookup. -/
def Proc.doneCalls (p : Pid) (x : Proc) (userList : List User) : LookupFor → List Call
  | .notice _ after => (userList.filter (x.fails p)).map .logoutDel ++ after.calls
  | .loginKick l => [.loginSet l]
  | .sendMsg user msg => fanOut (sendMsgNotice user.userId msg) (userList.map User.userId)

def Proc.loopCalls (p : Pid) (x : Proc) (next : LookupFor) (userList : List User) :
    List Str → List Call
  | [] => x.doneCalls p userList next
  | key :: rest => [.lookupHash key rest userList next]

/- The calls of the callback of a call. -/
def Proc.replyCalls (p : Pid) (x : Proc) : Call → Store.Reply → List Call
  | .lookupKeys _ next, .array res => x.loopCalls p next [] res
  | .lookupKeys _ next, _ => x.doneCalls p [] next
  | .lookupHash _ rest userList next, .hash res =>
    x.loopCalls p next (userList ++ [x.getUserWithRedis res]) rest
  | .addRoomIncr (some _) _, .error _ => []
  | .addRoomIncr (some _) h, .int res => [.addRoomSet (parseInt res) h]
  | .addRoomIncr (some _) h, _ => [.addRoomSet 0 h]
  | .delRoomKeys (some _) roomId h, .array (_ :: _) => [.delRoomExec roomId h]
  | .delRoomExec roomId _, .exec (.array res :: _) => fanOut (.roomClose roomId) res
  | .broadcastKeys user roomId msg h, .array (_ :: _) => [.broadcastMembers user roomId msg h]
  | .broadcastMembers (some user) _ msg _, .array res =>
    fanOut (sendMsgNotice user.userId msg) res
  | .roomListKeys (some _) h, .array (key :: rest) => [.roomListGet key rest [] h]
  | .roomListGet _ (key :: rest) roomList h, .bulk res =>
    [.roomListGet key rest (roomList ++ [res]) h]
  | .addRoomUserKeys (some user) roomId h, .array (_ :: _) => [.addRoomUserMembers user roomId h]
  | .addRoomUserMembers user roomId h, .array res =>
    fanOut (.roomIn user.userId) (res.filter (· ≠ user.userId)) ++ [.addRoomUserAdd user roomId h]
  | .addRoomUserMembers user roomId h, _ => [.addRoomUserAdd user roomId h]
  | .delRoomUserMembers (some user) roomId h, .array res =>
    fanOut (.roomOut user.userId) (res.filter (· ≠ user.userId)) ++ [.delRoomUserRem user roomId h]
  | .delRoomUserMembers (some user) roomId h, _ => [.delRoomUserRem user roomId h]
  | _, _ => []

/- The stretch from `x` to `y` issued exactly `news`. -/
def Sends (x y : Proc) (news : List Call) : Prop := y.sent = x.sent ++ news

theorem Sends.refl (x : Proc) : Sends x x [] := (List.append_nil _).symm

theorem lookupDone_sends (p : Pid) (x : Proc) (next : LookupFor) (userList : List User) :
    Sends x (x.lookupDone p next userList) (x.doneCalls p userList next) := by
  cases next with
  | notice notice after =>
    have hafter := Emits.afterSend (x.sendAll p notice userList) after
    show (Proc.afterSend after (x.sendAll p notice userList)).sent = _
    rw [hafter.sent, (sendAll_spec p notice userList x).sent, List.append_assoc]
    rfl
  | loginKick l => exact ((Emits.kickOld x userList).trans (Emits.issue _ _)).sent
  | sendMsg user msg => exact (Emits.sendMsgs x (sendMsgNotice user.userId msg) userList).sent

theorem lookupLoop_sends (p : Pid) (x : Proc) (next : LookupFor) (res : List Str)
    (userList : List User) :
    Sends x (x.lookupLoop p next res userList) (x.loopCalls p next userList res) := by
  cases res with
  | nil => exact lookupDone_sends p x next userList
  | cons key rest => rfl

theorem roomResult_sends (x : Proc) (h : Handler) (data : RespData) (err : Option Str) :
    Sends x (x.roomResult h data err) [] := (Emits.roomResult x h data err).sent

theorem notifyAll_sends (x : Proc) (notice : Notice) (members : List Str) (h : Handler)
    (data : RespData) (err : Option Str) :
    Sends x ((x.notifyAll notice members).roomResult h data err) (fanOut notice members) :=
  ((Emits.notifyAll x notice members).quiet (Emits.roomResult _ h data err)).sent

theorem notifyOthers_sends (x : Proc) (user : User) (notice : Notice) (members : List Str)
    (c : Call) : Sends x ((x.notifyOthers user notice members).issue c)
      (fanOut notice (members.filter (· ≠ user.userId)) ++ [c]) :=
  ((Emits.notifyOthers x user notice members).trans (Emits.issue _ c)).sent

theorem roomListLoop_sends (x : Proc) (res roomList : List Str) (h : Handler) :
    Sends x (x.roomListLoop (fun l => Proc.roomResult h (.roomList l) none) res roomList h)
      (match res with
        | [] => []
        | key :: rest => [.roomListGet key rest roomList h]) := by
  cases res with
  | nil => exact roomResult_sends x h (.roomList roomList) none
  | cons key rest => rfl

theorem reply_sends (p : Pid) (x : Proc) (c : Call) (r : Store.Reply) :
    Sends x (x.onReply p c r) (x.replyCalls p c r) := by
  cases c with
  | lookupKeys userId next =>
    cases r with
    | array res => exact lookupLoop_sends p x next res []
    | _ => exact lookupDone_sends p x next []
  | lookupHash key rest userList next =>
    cases r with
    | hash res => exact lookupLoop_sends p x.newRef next rest _
    | _ => exact Sends.refl x
  | loginSet l => exact (Emits.loginRespond (x.addUser l.user) l.user.socketId l.id).sent
  | logoutDel user => exact Sends.refl x
  | addRoomIncr user h =>
    cases user with
    | none => exact Sends.refl x
    | some user =>
      cases r with
      | error err => exact roomResult_sends x h .empty (some err)
      | _ => rfl
  | addRoomSet roomId h =>
    cases r with
    | error err => exact roomResult_sends x h (.room (.num roomId)) (some err)
    | _ => exact roomResult_sends x h (.room (.num roomId)) none
  | delRoomKeys user roomId h =>
    cases user with
    | none => exact Sends.refl x
    | some user =>
      cases r with
      | array res =>
        cases res with
        | nil => exact roomResult_sends x h (.room roomId) (some roomNotExist)
        | cons k ks => rfl
      | _ => exact roomResult_sends x h (.room roomId) (some roomNotExist)
  | delRoomExec roomId h =>
    cases r with
    | exec rs =>
      cases rs with
      | nil => exact roomResult_sends x h (.room roomId) none
      | cons r rs =>
        cases r with
        | array res => exact notifyAll_sends x _ res h (.room roomId) none
        | _ => exact roomResult_sends x h (.room roomId) none
    | error err => exact roomResult_sends x h (.room roomId) (some err)
    | _ => exact roomResult_sends x h (.room roomId) none
  | broadcastKeys user roomId msg h =>
    cases r with
    | array res =>
      cases res with
      | nil =>
        cases user with
        | none => exact Sends.refl x
        | some user => exact roomResult_sends x h .empty (some roomNotExist)
      | cons k ks => rfl
    | _ =>
      cases user with
      | none => exact Sends.refl x
      | some user => exact roomResult_sends x h .empty (some roomNotExist)
  | broadcastMembers user roomId msg h =>
    cases user with
    | none => exact Sends.refl x
    | some user =>
      cases r with
      | array res => exact notifyAll_sends x _ res h _ _
      | _ => exact roomResult_sends x h _ _
  | roomListKeys user h =>
    cases user with
    | none => exact Sends.refl x
    | some user =>
      cases r with
      | array res =>
        have hloop := roomListLoop_sends x res [] h
        cases res with
        | _ => exact hloop
      | _ => exact Sends.refl x
  | roomListGet key rest roomList h =>
    cases r with
    | bulk res =>
      have hloop := roomListLoop_sends x rest (roomList ++ [res]) h
      cases rest with
      | _ => exact hloop
    | _ =>
      cases rest with
      | _ => exact Sends.refl x
  | addRoomUserKeys user roomId h =>
    cases user with
    | none => exact Sends.refl x
    | some user =>
      cases r with
      | array res =>
        cases res with
        | nil => exact roomResult_sends x h _ _
        | cons k ks => rfl
      | _ => exact roomResult_sends x h _ _
  | addRoomUserMembers user roomId h =>
    cases r with
    | array res => exact notifyOthers_sends x user _ res _
    | _ => rfl
  | addRoomUserAdd user roomId h =>
    cases r with
    | _ => exact roomResult_sends _ h _ _
  | delRoomUserMembers user roomId h =>
    cases user with
    | none => exact Sends.refl x
    | some user =>
      cases r with
      | array res => exact notifyOthers_sends x user _ res _
      | _ => rfl
  | delRoomUserRem user roomId h =>
    cases h with
    | none =>
      cases r with
      | _ => exact Sends.refl x
    | some h =>
      cases r with
      | _ => exact roomResult_sends _ h _ _

/-! ### Inputs -/

/- The calls of a request handler. -/
def Proc.requestCalls (p : Pid) (x : Proc) (s : Str) (req : Request) (now : ℕ)
    (route : Route) : List Call :=
  let h := x.getBaseRespond s req.id route
  let user := x.getUserWithSocket s
  match route with
  | .heartbeat | .logout => []
  | .login =>
    match req.userId, user with
    | some userId, none =>
      [.lookupKeys userId (.notice (.kick userId) (.login
        ⟨createUserWithLogin p x.nextRef userId s (((x.conns.get s).map Conn.connectTtime).getD [])
          (natText now), req.id⟩))]
    | _, _ => []
  | .roomList => [.roomListKeys user h]
  | .roomCreate => [.addRoomIncr user h]
  | .roomClose => [.delRoomKeys user req.roomId h]
  | .roomIn => [.addRoomUserKeys user req.roomId h]
  | .roomOut =>
    if (x.ctxRoomId s).isNull then [] else [.delRoomUserMembers user req.roomId (some h)]
  | .sendLiveChat =>
    if (x.ctxRoomId s).isNull then [] else [.broadcastKeys user (x.ctxRoomId s) req.msg h]
  | .sendMsg =>
    match user, req.toUserId with
    | some user, some toUserId => [.lookupKeys toUserId (.sendMsg user req.msg)]
    | _, _ => []

/- The calls of an input. -/
def Proc.issued (p : Pid) (x : Proc) : Input → List Call
  | .message s req now =>
    match getRouterByName req.route with
    | some (.handler route) => x.requestCalls p s req now route
    | some .inherited => []
    | none => if x.isSettled s then [] else x.leaveCalls s
  | .wsError s | .wsClose s => x.leaveCalls s
  | .reply c r => x.replyCalls p c r
  | _ => []

theorem sendRespond_sends (x : Proc) (h : Handler) (isKick : Bool) :
    Sends x (x.sendRespond h isKick) [] := (Emits.sendRespond x h isKick).sent

theorem loginHandle_sends (p : Pid) (x : Proc) (s : Str) (req : Request) (now : ℕ) :
    Sends x (x.loginHandle p s req.id req.userId now) (x.requestCalls p s req now .login) := by
  have hrespond : Sends x (x.loginRespond s req.id) [] := (Emits.loginRespond x s req.id).sent
  simp only [Proc.loginHandle, Proc.requestCalls]
  cases req.userId with
  | none => exact hrespond
  | some userId =>
    cases x.getUserWithSocket s with
    | none => rfl
    | some user => exact hrespond

theorem handle_sends (p : Pid) (x : Proc) (s : Str) (route : Route) (req : Request) (now : ℕ) :
    Sends x (x.handle p s route req now) (x.requestCalls p s req now route) := by
  cases route with
  | login => exact loginHandle_sends p x s req now
  | roomOut =>
    simp only [Proc.handle, Proc.requestCalls]
    split
    · exact sendRespond_sends x _ false
    · rfl
  | sendLiveChat =>
    simp only [Proc.handle, Proc.requestCalls]
    split
    · exact sendRespond_sends x _ false
    · rfl
  | sendMsg =>
    simp only [Proc.handle, Proc.requestCalls]
    cases x.getUserWithSocket s with
    | none => exact sendRespond_sends x _ false
    | some user =>
      cases req.toUserId with
      | none => exact sendRespond_sends x _ false
      | some toUserId =>
        exact ((Emits.issue x (.lookupKeys toUserId (.sendMsg user req.msg))).quiet
          (Emits.sendRespond _ _ false)).sent
  | heartbeat => exact sendRespond_sends x _ false
  | logout => exact sendRespond_sends x _ _
  | _ => rfl

/-- The calls an input issues, in order. -/
theorem react_sends (p : Pid) (i : Input) (x : Proc) (hk : x.Keyed) :
    Sends x (react p i x) (x.issued p i) := by
  cases i with
  | connect s now => exact Sends.refl x
  | message s req now =>
    simp only [react, Proc.onMessage, Proc.issued]
    cases hr : getRouterByName req.route with
    | none =>
      simp only
      by_cases hs : x.isSettled s = true
      · simp only [hs, if_true, Proc.rejectConn]
        exact Sends.refl x
      · have hsettled : x.isSettled s = false := by simpa using hs
        have hd : Disconnects (.message s req now) x s :=
          Or.inr (Or.inr ⟨req, now, rfl, hr, hsettled⟩)
        have hsent := disconnects_sent p _ x s hk hd
        simp only [react, Proc.onMessage, hr] at hsent
        simp only [hs, Bool.false_eq_true, if_false]
        exact hsent
    | some entry =>
      cases entry with
      | handler route => exact handle_sends p x s route req now
      | inherited => exact Sends.refl x
  | peerClose s => exact Sends.refl x
  | wsError s => exact disconnects_sent p _ x s hk (Or.inr (Or.inl rfl))
  | wsClose s => exact disconnects_sent p _ x s hk (Or.inl rfl)
  | reply c r => exact reply_sends p x c r
  | packet packet => exact (Emits.onPacket x packet).sent

theorem Handled.issued {w v : World} {e : Event} {p : Pid} {i : Input} {x : Proc}
    (h : Handled w v e p i x) (hw : WF w) : (v.procs p).sent = (w.procs p).sent ++ x.issued p i := by
  rw [h.after, ← h.sent]
  exact react_sends p i x (h.keyed hw)

theorem Handled.effect_issued {w v : World} {e : Event} {p : Pid} {i : Input} {x : Proc}
    (h : Handled w v e p i x) (hw : WF w) :
    ∃ outs, Effect p i x (v.procs p) (x.issued p i) outs := by
  obtain ⟨news, outs, heff⟩ := h.effect hw
  have hsent := heff.sent
  rw [h.issued hw, ← h.sent] at hsent
  rw [← List.append_cancel_left hsent] at heff
  exact ⟨outs, heff⟩

theorem Handled.calls_issued {w v : World} {e : Event} {p : Pid} {i : Input} {x : Proc}
    (h : Handled w v e p i x) (hw : WF w) :
    (w.procs p).calls = i.replied.map Prod.fst ++ x.calls ∧
      (v.procs p).calls = x.calls ++ x.issued p i := by
  obtain ⟨outs, heff⟩ := h.effect_issued hw
  refine ⟨?_, ?_⟩
  · simp [Proc.calls, h.answered, h.sent]
  · simp [Proc.calls, heff.answered, heff.sent]

theorem Handled.issued_origin {w v : World} {e : Event} {p : Pid} {i : Input} {x : Proc}
    (h : Handled w v e p i x) (hw : WF w) (c : Call) (hc : c ∈ x.issued p i) : Origin p i x c := by
  obtain ⟨outs, heff⟩ := h.effect_issued hw
  exact heff.origin c hc

/-! ### Handlers are handed on -/

/- The handler a call will answer. -/
def Call.handler : Call → Option Handler
  | .addRoomIncr _ h | .addRoomSet _ h | .delRoomKeys _ _ h | .delRoomExec _ h => some h
  | .broadcastKeys _ _ _ h | .broadcastMembers _ _ _ h => some h
  | .roomListKeys _ h | .roomListGet _ _ _ h => some h
  | .addRoomUserKeys _ _ h | .addRoomUserMembers _ _ h | .addRoomUserAdd _ _ h => some h
  | .delRoomUserMembers _ _ h | .delRoomUserRem _ _ h => h
  | _ => none

theorem fanOut_handler {notice : Notice} {users : List Str} {c : Call}
    (hc : c ∈ fanOut notice users) : c.handler = none := by
  obtain ⟨u, _, rfl⟩ := List.mem_map.mp hc
  rfl

theorem doneCalls_handler {p : Pid} {x : Proc} {next : LookupFor} {userList : List User} {c : Call}
    (hc : c ∈ x.doneCalls p userList next) : c.handler = none := by
  cases next with
  | notice notice after =>
    rcases List.mem_append.mp hc with hc | hc
    · obtain ⟨user, _, rfl⟩ := List.mem_map.mp hc
      rfl
    · cases after with
      | nobody => cases hc
      | login l =>
        rw [List.mem_singleton.mp hc]
        rfl
  | loginKick l =>
    rw [List.mem_singleton.mp hc]
    rfl
  | sendMsg user msg => exact fanOut_handler hc

theorem loopCalls_handler {p : Pid} {x : Proc} {next : LookupFor} {userList : List User}
    {res : List Str} {c : Call} (hc : c ∈ x.loopCalls p next userList res) : c.handler = none := by
  cases res with
  | nil => exact doneCalls_handler hc
  | cons key rest =>
    rw [List.mem_singleton.mp hc]
    rfl

theorem replyCalls_handler {p : Pid} {x : Proc} {c c' : Call} {r : Store.Reply}
    (hc : c' ∈ x.replyCalls p c r) : c'.handler = none ∨ c'.handler = c.handler := by
  have one : ∀ d, c' ∈ [d] → d.handler = c.handler → c'.handler = none ∨ c'.handler = c.handler := by
    intro d hm hd
    rw [List.mem_singleton.mp hm]
    exact Or.inr hd
  -- the fan-out of a join or leave stands before its next call
  have after : ∀ notice users d, c' ∈ fanOut notice users ++ [d] → d.handler = c.handler →
      c'.handler = none ∨ c'.handler = c.handler := by
    intro notice users d hm hd
    rcases List.mem_append.mp hm with hm | hm
    · exact Or.inl (fanOut_handler hm)
    · exact one d hm hd
  unfold Proc.replyCalls at hc
  split at hc
  · exact Or.inl (loopCalls_handler hc)
  · exact Or.inl (doneCalls_handler hc)
  · exact Or.inl (loopCalls_handler hc)
  · cases hc
  · exact one _ hc rfl
  · exact one _ hc rfl
  · exact one _ hc rfl
  · exact Or.inl (fanOut_handler hc)
  · exact one _ hc rfl
  · exact Or.inl (fanOut_handler hc)
  · exact one _ hc rfl
  · exact one _ hc rfl
  · exact one _ hc rfl
  · exact after _ _ _ hc rfl
  · exact one _ hc rfl
  · exact after _ _ _ hc rfl
  · exact one _ hc rfl
  · cases hc

theorem requestCalls_handler {p : Pid} {x : Proc} {s : Str} {req : Request} {now : ℕ}
    {route : Route} {c : Call} {h : Handler} (hc : c ∈ x.requestCalls p s req now route)
    (hh : c.handler = some h) : route ≠ .login ∧ h = x.getBaseRespond s req.id route := by
  have one : ∀ d, c ∈ [d] → d.handler = some (x.getBaseRespond s req.id route) →
      h = x.getBaseRespond s req.id route := by
    intro d hm hd
    rw [List.mem_singleton.mp hm, hd] at hh
    exact (Option.some.inj hh).symm
  have absent : ∀ d, c ∈ [d] → d.handler = none → False := by
    intro d hm hd
    rw [List.mem_singleton.mp hm, hd] at hh
    cases hh
  cases route with
  | heartbeat => cases hc
  | logout => cases hc
  | login =>
    simp only [Proc.requestCalls] at hc
    split at hc
    · exact (absent _ hc rfl).elim
    · cases hc
  | roomOut =>
    simp only [Proc.requestCalls] at hc
    split at hc
    · cases hc
    · exact ⟨by decide, one _ hc rfl⟩
  | sendLiveChat =>
    simp only [Proc.requestCalls] at hc
    split at hc
    · cases hc
    · exact ⟨by decide, one _ hc rfl⟩
  | sendMsg =>
    simp only [Proc.requestCalls] at hc
    split at hc
    · exact (absent _ hc rfl).elim
    · cases hc
  | _ => exact ⟨by decide, one _ hc rfl⟩

/-- A handler in a call comes from the request it serves. -/
theorem issued_handler {p : Pid} {i : Input} {x : Proc} {c : Call} {h : Handler}
    (hc : c ∈ x.issued p i) (hh : c.handler = some h) :
    (∃ c₀ r, i = .reply c₀ r ∧ c₀.handler = some h) ∨
      ∃ s req now route, i = .message s req now ∧
        getRouterByName req.route = some (.handler route) ∧ route ≠ .login ∧
        h = x.getBaseRespond s req.id route := by
  have leave : ∀ s, c ∈ x.leaveCalls s → c.handler = none := by
    intro s hm
    unfold Proc.leaveCalls at hm
    split at hm
    · cases hm
    · split at hm
      · rw [List.mem_singleton.mp hm]
        rfl
      · rcases List.mem_pair.mp hm with rfl | rfl
        · rfl
        · rfl
  cases i with
  | connect s now => cases hc
  | peerClose s => cases hc
  | packet packet => cases hc
  | wsError s => rw [leave s hc] at hh; cases hh
  | wsClose s => rw [leave s hc] at hh; cases hh
  | reply c₀ r =>
    rcases replyCalls_handler hc with hnone | hsame
    · rw [hnone] at hh
      cases hh
    · exact Or.inl ⟨c₀, r, rfl, hsame.symm.trans hh⟩
  | message s req now =>
    simp only [Proc.issued] at hc
    split at hc
    · rename_i route hroute
      obtain ⟨hne, hbase⟩ := requestCalls_handler hc hh
      exact Or.inr ⟨s, req, now, route, rfl, hroute, hne, hbase⟩
    · cases hc
    · split at hc
      · cases hc
      · rw [leave s hc] at hh
        cases hh

end NodeServer

import NodeServer.Proof.Effects

/-! # The case analysis of the event loop -/

namespace NodeServer

/-- `userList` is keyed by the socket id of its users. -/
def Proc.Keyed (x : Proc) : Prop := ∀ s user, x.userList.get s = some user → user.socketId = s

/-! ### Leaving -/

/-- The calls `disconnect` issues. -/
def Proc.leaveCalls (x : Proc) (s : Str) : List Call :=
  match x.userList.get s with
  | none => []
  | some user =>
    if (x.ctxRoomId s).isNull then [.logoutDel user]
    else [.logoutDel user, .delRoomUserMembers (some user) (x.ctxRoomId s) none]

theorem disconnect_sent (x : Proc) (s : Str) :
    (x.disconnect s).sent = x.sent ++ x.leaveCalls s := by
  unfold Proc.disconnect Proc.leaveCalls Proc.getUserWithSocket
  cases x.userList.get s with
  | none => simp
  | some user =>
    by_cases hr : (x.ctxRoomId s).isNull = true
    · simp [hr, Proc.logout, Proc.issue, Proc.delUser]
    · simp [hr, Proc.logout, Proc.issue, Proc.delUser, Proc.delRoomUser]

theorem disconnect_rest (x : Proc) (s : Str) :
    (x.disconnect s).answered = x.answered ∧ (x.disconnect s).outbox = x.outbox ∧
      (x.disconnect s).conns = x.conns := by
  unfold Proc.disconnect
  cases x.getUserWithSocket s with
  | none => exact ⟨rfl, rfl, rfl⟩
  | some user =>
    by_cases hr : (x.ctxRoomId s).isNull = true
    · simp [hr, Proc.logout, Proc.issue, Proc.delUser]
    · simp [hr, Proc.logout, Proc.issue, Proc.delUser, Proc.delRoomUser]

theorem disconnect_userList (x : Proc) (s t : Str) (hk : x.Keyed) :
    (x.disconnect s).userList.get t = if t = s then none else x.userList.get t := by
  unfold Proc.disconnect Proc.getUserWithSocket
  cases hu : x.userList.get s with
  | none =>
    by_cases ht : t = s
    · simp [ht, hu]
    · simp [ht]
  | some user =>
    have hs := hk s user hu
    by_cases hr : (x.ctxRoomId s).isNull = true
    · simp [hr, Proc.logout, Proc.issue, Proc.delUser, Table.get_del, hs]
    · simp [hr, Proc.logout, Proc.issue, Proc.delUser, Proc.delRoomUser, Table.get_del, hs]

theorem leaveCalls_origin (p : Pid) (i : Input) (x : Proc) (s : Str) (hd : Disconnects i x s) :
    ∀ c ∈ x.leaveCalls s, Origin p i x c := by
  intro c hc
  unfold Proc.leaveCalls at hc
  cases hu : x.userList.get s with
  | none => simp [hu] at hc
  | some user =>
    have hout : LogsOut p i x user := Or.inl ⟨s, hd, hu⟩
    by_cases hr : (x.ctxRoomId s).isNull = true
    · simp only [hu, hr, if_true, List.mem_singleton] at hc
      rw [hc]
      exact .logoutDel user hout
    · simp [hu, hr] at hc
      rcases hc with rfl | rfl
      · exact .logoutDel user hout
      · exact .leave s user hd hu (by simpa using hr)

theorem mem_leaveCalls (x : Proc) (s : Str) (user : User) :
    .logoutDel user ∈ x.leaveCalls s ↔ x.userList.get s = some user := by
  unfold Proc.leaveCalls
  cases x.userList.get s with
  | none => simp
  | some v =>
    by_cases hr : (x.ctxRoomId s).isNull = true
    · simp [hr, eq_comm]
    · simp [hr, eq_comm]

theorem leaveCalls_chained (x : Proc) (s : Str) :
    ((x.leaveCalls s).filter Call.chained).length ≤ 1 := by
  unfold Proc.leaveCalls
  cases x.userList.get s with
  | none => exact Nat.zero_le 1
  | some user =>
    by_cases hr : (x.ctxRoomId s).isNull = true
    · simp [hr, Call.chained]
    · simp only [hr]
      exact List.length_filter_le Call.chained [.delRoomUserMembers (some user) (x.ctxRoomId s) none]

theorem leave_effect (p : Pid) (i : Input) (x y : Proc) (s : Str) (hk : x.Keyed)
    (hd : Disconnects i x s) (hsent : y.sent = x.sent ++ x.leaveCalls s)
    (hans : y.answered = x.answered) (hout : y.outbox = x.outbox)
    (husers : ∀ t, y.userList.get t = if t = s then none else x.userList.get t)
    (hconns : ∀ t, ConnStep i t (x.conns.get t) (y.conns.get t)) :
    Effect p i x y (x.leaveCalls s) [] where
  sent := hsent
  origin := leaveCalls_origin p i x s hd
  chained := leaveCalls_chained x s
  answered := hans
  outbox := by rw [hout, List.append_nil]
  forwards := by
    intro packet hp
    cases hp
  users := by
    intro t
    rw [husers t]
    by_cases ht : t = s
    · subst ht
      cases hu : x.userList.get t with
      | none => exact Or.inl (by simp)
      | some user =>
        exact Or.inr (Or.inl ⟨by simp, user, hk t user hu, (mem_leaveCalls x t user).mpr hu⟩)
    · exact Or.inl (by simp [ht])
  gone := by
    intro user hm
    rw [husers, hk s user ((mem_leaveCalls x s user).mp hm), if_pos rfl]
  conns := hconns

theorem rejectConn_quiet (x : Proc) (s : Str) (hu : x.userList.get s = none) :
    Emits [] x (x.rejectConn s) := by
  unfold Proc.rejectConn
  by_cases hs : x.isSettled s = true
  · simp only [hs, if_true]
    exact Emits.refl x
  · have hd : (x.settle s).disconnect s = x.settle s := by
      simp [Proc.disconnect, Proc.getUserWithSocket, Proc.settle, Proc.setConn, hu]
    simp only [hs, hd]
    exact Emits.settle x s

theorem ctxRoomId_setWs (x : Proc) (s t : Str) (ws : WsState) :
    (x.setWs s ws).ctxRoomId t = x.ctxRoomId t := by
  simp only [Proc.ctxRoomId, Proc.setWs, Proc.setConn, Table.get_modify]
  by_cases ht : t = s
  · subst ht
    cases x.conns.get t with
    | none => simp
    | some c => simp
  · simp [ht]

theorem ConnStep.ofShut (i : Input) (s : Str) (ws : WsState)
    (hws : (i = .wsClose s ∧ ws = .closed) ∨ (i = .wsError s ∧ ws = .closing))
    (a b : Option Conn) (h : Conn.LeOpt (a.map fun c => { c with ws := ws }) b) :
    ConnStep i s a b := by
  cases a with
  | none => exact ConnStep.ofLe i s h
  | some c =>
    cases b with
    | none => cases h
    | some d =>
      have hle : Conn.Le { c with ws := ws } d := h
      have hd : d.ws = ws := by
        rcases hle.ws with hw | ⟨hw, _⟩
        · exact hw
        · rcases hws with ⟨_, rfl⟩ | ⟨_, rfl⟩
          · cases hw
          · cases hw
      refine ⟨Or.inr ?_, hle.settled, Or.inl hle.roomId⟩
      rcases hws with ⟨hi, rfl⟩ | ⟨hi, rfl⟩
      · exact Or.inl ⟨hi, hd⟩
      · exact Or.inr ⟨hi, hd⟩

/-- A close or error event: the socket changes, `disconnect` runs, and the
promise is rejected. -/
theorem shut_effect (p : Pid) (i : Input) (x : Proc) (s : Str) (ws : WsState) (hk : x.Keyed)
    (hd : Disconnects i x s)
    (hws : (i = .wsClose s ∧ ws = .closed) ∨ (i = .wsError s ∧ ws = .closing)) :
    Effect p i x (((x.setWs s ws).disconnect s).rejectConn s) (x.leaveCalls s) [] := by
  have hcalls : (x.setWs s ws).leaveCalls s = x.leaveCalls s := by
    simp only [Proc.leaveCalls, ctxRoomId_setWs]
    rfl
  have hk' : (x.setWs s ws).Keyed := hk
  have hu := disconnect_userList (x.setWs s ws) s
  obtain ⟨ha, ho, hc⟩ := disconnect_rest (x.setWs s ws) s
  have hq := rejectConn_quiet ((x.setWs s ws).disconnect s) s (by rw [hu s hk', if_pos rfl])
  refine leave_effect p i x _ s hk hd ?_ (hq.answered.trans ha) (hq.outbox.trans ho) ?_ ?_
  · rw [hq.sent, disconnect_sent, hcalls, List.append_nil]
    rfl
  · intro t
    rw [hq.userList, hu t hk']
    rfl
  · intro t
    have hstep := hq.ctx t
    rw [hc] at hstep
    simp only [Proc.setWs, Proc.setConn, Table.get_modify] at hstep
    by_cases ht : t = s
    · subst ht
      rw [if_pos rfl] at hstep
      generalize x.conns.get t = a at hstep ⊢
      exact ConnStep.ofShut i t ws hws a _ hstep
    · rw [if_neg ht] at hstep
      exact ConnStep.ofLe i t hstep

/-! ### Lookups -/

/-- The call issued after `NoticeSender.send` has resolved. -/
def AfterSend.calls : AfterSend → List Call
  | .nobody => []
  | .login l => [.lookupKeys l.user.userId (.loginKick l)]

theorem Emits.afterSend (x : Proc) (after : AfterSend) :
    Emits after.calls x (x.afterSend after) := by
  cases after with
  | nobody => exact Emits.refl x
  | login l => exact Emits.issue x _

theorem logoutDel_chained (users : List User) :
    (users.map Call.logoutDel).filter Call.chained = [] := by
  simp [List.filter_map, Function.comp_def, Call.chained]

theorem AfterSend.calls_chained (after : AfterSend) :
    (after.calls.filter Call.chained).length ≤ 1 := by
  cases after with
  | nobody => exact Nat.zero_le 1
  | login l => exact Nat.le_refl 1

/-- A lookup made for a notice resolves. `x₁` is the process with the object
identities used so far. -/
theorem notice_effect (p : Pid) (i : Input) (x x₁ : Proc) (notice : Notice) (after : AfterSend)
    (userList : List User) (hx : Emits [] x x₁) (hws : ∀ s, x₁.ws s = x.ws s)
    (hr : Resolves i x (.notice notice after) userList) :
    Effect p i x ((x₁.sendAll p notice userList).afterSend after)
      ((userList.filter (x.fails p)).map .logoutDel ++ after.calls)
      ((userList.filter (isRemote p)).map (packetFor notice)) := by
  have hs := sendAll_spec p notice userList x₁
  have ha := Emits.afterSend (x₁.sendAll p notice userList) after
  have hfails : x₁.fails p = x.fails p := by
    funext u
    exact decide_eq_decide.mpr (by simp only [Proc.Sendable, hws])
  have hout : ∀ user, .logoutDel user ∈ (userList.filter (x.fails p)).map Call.logoutDel ++
      after.calls → user ∈ userList.filter (x.fails p) := by
    intro user hu
    rcases List.mem_append.mp hu with hu | hu
    · obtain ⟨v, hv, heq⟩ := List.mem_map.mp hu
      cases heq
      exact hv
    · cases after with
      | nobody => cases hu
      | login l => simp [AfterSend.calls] at hu
  have hlog : ∀ user ∈ userList.filter (x.fails p), LogsOut p i x user := by
    intro user hu
    obtain ⟨hmem, hf⟩ := List.mem_filter.mp hu
    have hf : user.appInfo = appInfo p ∧ ¬ x.Sendable user := of_decide_eq_true hf
    exact Or.inr ⟨notice, after, userList, hr, hmem, hf.1, hf.2⟩
  have husers : ∀ s, ((x₁.sendAll p notice userList).afterSend after).userList.get s =
      if s ∈ (userList.filter (x.fails p)).map User.socketId then none else x.userList.get s := by
    intro s
    rw [ha.userList, hs.userList, hx.userList, hfails]
  refine ⟨?_, ?_, ?_, ?_, ?_, ?_, ?_, ?_, ?_⟩
  · rw [ha.sent, hs.sent, hx.sent, hfails, List.append_nil, List.append_assoc]
  · intro c hc
    rcases List.mem_append.mp hc with hc | hc
    · obtain ⟨user, hu, rfl⟩ := List.mem_map.mp hc
      exact .logoutDel user (hlog user hu)
    · cases after with
      | nobody => cases hc
      | login l =>
        rw [List.mem_singleton.mp hc]
        exact .loginAgain l notice userList hr
  · rw [List.filter_append, logoutDel_chained, List.nil_append]
    exact after.calls_chained
  · rw [ha.answered, hs.answered, hx.answered]
  · rw [ha.outbox, hs.outbox, hx.outbox]
  · intro packet hp
    obtain ⟨user, hu, rfl⟩ := List.mem_map.mp hp
    obtain ⟨hmem, hrem⟩ := List.mem_filter.mp hu
    exact ⟨notice, after, userList, user, hr, hmem, of_decide_eq_true hrem, rfl⟩
  · intro s
    rw [husers s]
    by_cases hm : s ∈ (userList.filter (x.fails p)).map User.socketId
    · obtain ⟨user, hu, hus⟩ := List.mem_map.mp hm
      rw [if_pos hm]
      exact Or.inr (Or.inl ⟨rfl, user, hus,
        List.mem_append_left _ (List.mem_map_of_mem hu)⟩)
    · rw [if_neg hm]
      exact Or.inl rfl
  · intro user hu
    rw [husers, if_pos (List.mem_map_of_mem (hout user hu))]
  · intro s
    exact ConnStep.ofLe i s (((hx.ctx.trans hs.ctx).trans ha.ctx) s)

theorem Emits.newRef (x : Proc) : Emits [] x x.newRef :=
  ⟨by simp [Proc.newRef], rfl, rfl, rfl, CtxLe.refl x⟩

theorem fanOut_chained (notice : Notice) (users : List Str) :
    (fanOut notice users).filter Call.chained = [] := by
  simp [fanOut, List.filter_map, Function.comp_def, Call.chained]

theorem singleton_chained (c : Call) : (([] ++ [c]).filter Call.chained).length ≤ 1 :=
  List.length_filter_le _ _

theorem lookupDone_effect (p : Pid) (i : Input) (x x₁ : Proc) (next : LookupFor)
    (userList : List User) (hx : Emits [] x x₁) (hws : ∀ s, x₁.ws s = x.ws s)
    (hr : Resolves i x next userList) :
    ∃ news outs, Effect p i x (x₁.lookupDone p next userList) news outs := by
  cases next with
  | notice notice after => exact ⟨_, _, notice_effect p i x x₁ notice after userList hx hws hr⟩
  | loginKick l =>
    have he : Emits [.loginSet l] x ((x₁.kickOld userList).issue (.loginSet l)) :=
      (hx.quiet (Emits.kickOld x₁ userList)).trans (Emits.issue _ _)
    refine ⟨_, [], Effect.ofEmits p i x _ _ he ?_ (singleton_chained _) (by simp)⟩
    intro c hc
    rw [List.mem_singleton.mp hc]
    exact .loginSet l userList hr
  | sendMsg user msg =>
    have he := hx.trans (Emits.sendMsgs x₁ (sendMsgNotice user.userId msg) userList)
    refine ⟨_, [], Effect.ofEmits p i x _ _ he ?_ (by simp [fanOut_chained]) (by simp [fanOut])⟩
    intro c hc
    obtain ⟨u, _, rfl⟩ := List.mem_map.mp hc
    exact .notify u _

theorem Effect.ofIssue (p : Pid) (i : Input) (x : Proc) (c : Call) (horigin : Origin p i x c)
    (hkeep : ∀ user, c ≠ .logoutDel user) : Effect p i x (x.issue c) [c] [] := by
  refine Effect.ofEmits p i x _ _ (Emits.issue x c) ?_ (singleton_chained c) ?_
  · intro d hd
    rw [List.mem_singleton.mp hd]
    exact horigin
  · intro user hu
    exact hkeep user (List.mem_singleton.mp hu).symm

theorem Effect.ofQuiet (p : Pid) (i : Input) (x y : Proc) (h : Emits [] x y) :
    Effect p i x y [] [] :=
  Effect.ofEmits p i x y [] h (by simp) (by simp) (by simp)

theorem lookupKeys_effect (p : Pid) (x : Proc) (userId : Str) (next : LookupFor)
    (r : Store.Reply) :
    ∃ news outs,
      Effect p (.reply (.lookupKeys userId next) r) x (x.onLookupKeys p next r) news outs := by
  have hdone : (∀ k ks, r ≠ .array (k :: ks)) → ∃ news outs,
      Effect p (.reply (.lookupKeys userId next) r) x (x.lookupDone p next []) news outs := by
    intro hr
    exact lookupDone_effect p _ x x next [] (Emits.refl x) (fun _ => rfl)
      (Or.inl ⟨userId, r, rfl, hr, rfl⟩)
  unfold Proc.onLookupKeys
  split
  · next res =>
    cases res with
    | nil => exact hdone (by simp)
    | cons key rest =>
      exact ⟨_, _, Effect.ofIssue p _ x _ (.hashFirst userId next key rest rfl) (by simp)⟩
  · next hn => exact hdone fun k ks hk => hn _ hk

theorem lookupHash_effect (p : Pid) (x : Proc) (key : Str) (rest : List Str)
    (userList : List User) (next : LookupFor) (r : Store.Reply) :
    ∃ news outs, Effect p (.reply (.lookupHash key rest userList next) r) x
      (x.onLookupHash p next rest userList r) news outs := by
  unfold Proc.onLookupHash
  split
  · next res =>
    cases rest with
    | nil =>
      exact lookupDone_effect p _ x x.newRef next _ (Emits.newRef x) (fun _ => rfl)
        (Or.inr ⟨key, userList, res, rfl, rfl⟩)
    | cons key' rest =>
      have he := (Emits.newRef x).trans (Emits.issue x.newRef
        (.lookupHash key' rest (userList ++ [x.getUserWithRedis res]) next))
      refine ⟨_, [], Effect.ofEmits p _ x _ _ he ?_ (singleton_chained _) (by simp)⟩
      intro c hc
      rw [List.mem_singleton.mp hc]
      exact .hashNext key next key' rest userList res rfl
  · exact ⟨[], [], Effect.ofQuiet p _ x x (Emits.refl x)⟩

/-! ### The other replies -/

theorem loginSet_effect (p : Pid) (x : Proc) (l : LoginReq) (r : Store.Reply) :
    Effect p (.reply (.loginSet l) r) x ((x.addUser l.user).loginRespond l.user.socketId l.id)
      [] [] := by
  have he := Emits.loginRespond (x.addUser l.user) l.user.socketId l.id
  refine ⟨by simpa [Proc.addUser] using he.sent, by simp, by simp, he.answered, ?_, by simp, ?_,
    by simp, ?_⟩
  · rw [he.outbox, List.append_nil]
    rfl
  · intro s
    rw [he.userList]
    simp only [Proc.addUser, Table.get_set]
    by_cases hs : s = l.user.socketId
    · exact Or.inr (Or.inr ⟨l, r, rfl, hs.symm, if_pos hs⟩)
    · exact Or.inl (if_neg hs)
  · intro s
    exact ConnStep.ofLe _ s (he.ctx s)

theorem ConnStep.ofNote (i : Input) (s : Str) (roomId : JsVal) (hn : NotesRoom i s roomId)
    (a b : Option Conn) (h : Conn.LeOpt (a.map fun c => { c with roomId := roomId }) b) :
    ConnStep i s a b := by
  cases a with
  | none => exact ConnStep.ofLe i s h
  | some c =>
    cases b with
    | none => cases h
    | some d =>
      have hle : Conn.Le { c with roomId := roomId } d := h
      refine ⟨Or.inl hle.ws, hle.settled, Or.inr ?_⟩
      rw [hle.roomId]
      exact hn

theorem noteRoom_effect (p : Pid) (i : Input) (x : Proc) (h : Handler) (roomId : JsVal)
    (data : RespData) (hn : NotesRoom i h.socketId roomId) :
    Effect p i x ((x.setConn h.socketId fun c => { c with roomId := roomId }).roomResult h data none)
      [] [] := by
  have he := Emits.roomResult (x.setConn h.socketId fun c => { c with roomId := roomId }) h data none
  refine ⟨by simpa [Proc.setConn] using he.sent, by simp, by simp, he.answered, ?_, by simp, ?_,
    by simp, ?_⟩
  · rw [he.outbox, List.append_nil]
    rfl
  · intro s
    exact Or.inl (by rw [he.userList]; rfl)
  · intro s
    have hstep := he.ctx s
    simp only [Proc.setConn, Table.get_modify] at hstep
    by_cases hs : s = h.socketId
    · subst hs
      rw [if_pos rfl] at hstep
      exact ConnStep.ofNote i h.socketId roomId hn _ _ hstep
    · rw [if_neg hs] at hstep
      exact ConnStep.ofLe i s hstep

theorem addRoom_effect (p : Pid) (x : Proc) (user : Option User) (h : Handler) (r : Store.Reply) :
    ∃ news outs, Effect p (.reply (.addRoomIncr user h) r) x
      (Proc.onAddRoomIncr (Proc.roomResult h .empty) user h r x) news outs := by
  unfold Proc.onAddRoomIncr
  split
  · exact ⟨[], [], Effect.ofQuiet p _ x x (Emits.refl x)⟩
  · exact ⟨[], [], Effect.ofQuiet p _ x _ (Emits.roomResult x h _ _)⟩
  · exact ⟨_, _, Effect.ofIssue p _ x _ (.addRoomSet _ h _ rfl) (by simp)⟩
  · next user hn hm =>
    exact ⟨_, _, Effect.ofIssue p _ x _ (.addRoomNull user h r rfl
      ⟨fun n hr => hm n hr, fun err hr => hn err hr⟩) (by simp)⟩

theorem delRoomKeys_effect (p : Pid) (x : Proc) (user : Option User) (roomId : JsVal) (h : Handler)
    (r : Store.Reply) :
    ∃ news outs, Effect p (.reply (.delRoomKeys user roomId h) r) x
      (Proc.onDelRoomKeys (Proc.roomResult h (.room roomId)) user roomId h r x) news outs := by
  unfold Proc.onDelRoomKeys
  split
  · exact ⟨[], [], Effect.ofQuiet p _ x x (Emits.refl x)⟩
  · exact ⟨_, _, Effect.ofIssue p _ x _ (.delRoomExec _ roomId h _ _ rfl) (by simp)⟩
  · exact ⟨[], [], Effect.ofQuiet p _ x _ (Emits.roomResult x h _ _)⟩

theorem fanOut_origin (p : Pid) (i : Input) (x : Proc) (notice : Notice) (users : List Str) :
    ∀ c ∈ fanOut notice users, Origin p i x c := by
  intro c hc
  obtain ⟨u, _, rfl⟩ := List.mem_map.mp hc
  exact .notify u notice

theorem logoutDel_notMem_fanOut (notice : Notice) (users : List Str) (user : User) :
    .logoutDel user ∉ fanOut notice users := by
  intro hu
  obtain ⟨u, _, heq⟩ := List.mem_map.mp hu
  cases heq

theorem notifyAll_effect (p : Pid) (i : Input) (x : Proc) (notice : Notice) (members : List Str)
    (h : Handler) (data : RespData) (err : Option Str) :
    Effect p i x ((x.notifyAll notice members).roomResult h data err) (fanOut notice members) [] :=
  Effect.ofEmits p i x _ _ ((Emits.notifyAll x notice members).quiet (Emits.roomResult _ h data err))
    (fanOut_origin p i x notice members) (by simp [fanOut_chained])
    (logoutDel_notMem_fanOut notice members)

theorem notifyOthers_effect (p : Pid) (i : Input) (x : Proc) (user : User) (notice : Notice)
    (members : List Str) (c : Call) (horigin : Origin p i x c)
    (hkeep : ∀ user, c ≠ .logoutDel user) :
    ∃ news outs, Effect p i x ((x.notifyOthers user notice members).issue c) news outs := by
  have he := (Emits.notifyOthers x user notice members).trans (Emits.issue _ c)
  refine ⟨_, [], Effect.ofEmits p i x _ _ he ?_ ?_ ?_⟩
  · intro d hd
    rcases List.mem_append.mp hd with hd | hd
    · exact fanOut_origin p i x _ _ d hd
    · rw [List.mem_singleton.mp hd]
      exact horigin
  · rw [List.filter_append, fanOut_chained]
    exact singleton_chained c
  · intro v hv
    rcases List.mem_append.mp hv with hv | hv
    · exact logoutDel_notMem_fanOut _ _ v hv
    · exact hkeep v (List.mem_singleton.mp hv).symm

theorem roomList_effect (p : Pid) (x : Proc) (res roomList : List Str) (h : Handler) (c : Call)
    (r : Store.Reply) (hc : c.listsRooms = true) : ∃ news outs, Effect p (.reply c r) x
      (x.roomListLoop (fun l => Proc.roomResult h (.roomList l) none) res roomList h) news outs := by
  cases res with
  | nil => exact ⟨[], [], Effect.ofQuiet p _ x _ (Emits.roomResult x h (.roomList roomList) none)⟩
  | cons key rest =>
    exact ⟨_, _, Effect.ofIssue p _ x _ (.roomListGet key rest roomList h c r rfl hc) (by simp)⟩

theorem addRoomUserKeys_effect (p : Pid) (x : Proc) (user : Option User) (roomId : JsVal)
    (h : Handler) (r : Store.Reply) :
    ∃ news outs, Effect p (.reply (.addRoomUserKeys user roomId h) r) x
      (Proc.onAddRoomUserKeys (Proc.roomInResult h roomId) user roomId h r x) news outs := by
  unfold Proc.onAddRoomUserKeys
  split
  · exact ⟨[], [], Effect.ofQuiet p _ x x (Emits.refl x)⟩
  · exact ⟨[], [], Effect.ofQuiet p _ x _ (Emits.roomResult x h (.room roomId) (some _))⟩
  · exact ⟨_, _, Effect.ofIssue p _ x _ (.addRoomUserMembers _ roomId h _ _ rfl) (by simp)⟩
  · exact ⟨[], [], Effect.ofQuiet p _ x _ (Emits.roomResult x h (.room roomId) (some _))⟩

theorem reply_effect (p : Pid) (x : Proc) (c : Call) (r : Store.Reply) :
    ∃ news outs, Effect p (.reply c r) x (x.onReply p c r) news outs := by
  have quiet : ∀ y, Emits [] x y → ∃ news outs, Effect p (.reply c r) x y news outs :=
    fun y hy => ⟨[], [], Effect.ofQuiet p _ x y hy⟩
  cases c with
  | lookupKeys userId next => exact lookupKeys_effect p x userId next r
  | lookupHash key rest userList next => exact lookupHash_effect p x key rest userList next r
  | loginSet l => exact ⟨[], [], loginSet_effect p x l r⟩
  | logoutDel user => exact quiet x (Emits.refl x)
  | addRoomIncr user h => exact addRoom_effect p x user h r
  | addRoomSet roomId h =>
    simp only [Proc.onReply, Proc.onAddRoomSet]
    split
    · exact quiet _ (Emits.roomResult x h _ _)
    · exact quiet _ (Emits.roomResult x h _ _)
  | delRoomKeys user roomId h => exact delRoomKeys_effect p x user roomId h r
  | delRoomExec roomId h =>
    simp only [Proc.onReply, Proc.onDelRoomExec]
    split
    · exact quiet _ (Emits.roomResult x h _ _)
    · exact ⟨_, _, notifyAll_effect p _ x _ _ h _ _⟩
    · exact quiet _ (Emits.roomResult x h _ _)
  | broadcastKeys user roomId msg h =>
    simp only [Proc.onReply, Proc.onBroadcastKeys]
    split
    · exact ⟨_, _, Effect.ofIssue p _ x _ (.broadcastMembers user roomId msg h _ _ rfl) (by simp)⟩
    · exact quiet x (Emits.refl x)
    · exact quiet _ (Emits.roomResult x h _ _)
  | broadcastMembers user roomId msg h =>
    simp only [Proc.onReply, Proc.onBroadcastMembers]
    split
    · exact quiet x (Emits.refl x)
    · exact quiet _ (Emits.roomResult x h _ _)
    · exact ⟨_, _, notifyAll_effect p _ x _ _ h _ _⟩
    · exact quiet _ (Emits.roomResult x h _ _)
  | roomListKeys user h =>
    simp only [Proc.onReply, Proc.onRoomListKeys]
    split
    · exact roomList_effect p x _ _ h _ _ rfl
    · exact quiet x (Emits.refl x)
  | roomListGet key rest roomList h =>
    simp only [Proc.onReply, Proc.onRoomListGet]
    split
    · exact roomList_effect p x _ _ h _ _ rfl
    · exact quiet x (Emits.refl x)
  | addRoomUserKeys user roomId h => exact addRoomUserKeys_effect p x user roomId h r
  | addRoomUserMembers user roomId h =>
    simp only [Proc.onReply, Proc.onAddRoomUserMembers]
    split
    · exact notifyOthers_effect p _ x user _ _ _ (.addRoomUserAdd user roomId h _ rfl) (by simp)
    · exact ⟨_, _, Effect.ofIssue p _ x _ (.addRoomUserAdd user roomId h r rfl) (by simp)⟩
  | addRoomUserAdd user roomId h =>
    simp only [Proc.onReply]
    split
    · exact quiet _ (Emits.roomResult x h (.room roomId) (some _))
    · next hr =>
      exact ⟨[], [], noteRoom_effect p _ x h roomId _
        (Or.inl ⟨user, h, r, rfl, fun err he => hr err he, rfl⟩)⟩
  | delRoomUserMembers user roomId h =>
    simp only [Proc.onReply, Proc.onDelRoomUserMembers]
    split
    · exact quiet x (Emits.refl x)
    · exact notifyOthers_effect p _ x _ _ _ _ (.delRoomUserRem _ roomId h _ rfl) (by simp)
    · exact ⟨_, _, Effect.ofIssue p _ x _ (.delRoomUserRem _ roomId h r rfl) (by simp)⟩
  | delRoomUserRem user roomId h =>
    simp only [Proc.onReply]
    cases h with
    | none =>
      split
      · exact quiet x (Emits.refl x)
      · exact quiet x (Emits.refl x)
    | some h =>
      split
      · exact quiet _ (Emits.roomResult x h (.room roomId) (some _))
      · next hr =>
        exact ⟨[], [], noteRoom_effect p _ x h .undefined _
          (Or.inr ⟨user, roomId, h, r, rfl, fun err he => hr err he, rfl, rfl⟩)⟩

/-! ### Client messages -/

theorem getBaseRespond_socketId (x : Proc) (s : Str) (n : ℕ) (route : Route) :
    (x.getBaseRespond s n route).socketId = s := by
  unfold Proc.getBaseRespond
  cases x.getUserWithSocket s with
  | none => rfl
  | some user => rfl

theorem handle_effect (p : Pid) (x : Proc) (s : Str) (route : Route) (req : Request) (now : ℕ)
    (hr : getRouterByName req.route = some (.handler route)) :
    ∃ news outs, Effect p (.message s req now) x (x.handle p s route req now) news outs := by
  have asks : Asks (.message s req now) s route req now := ⟨rfl, hr⟩
  have quiet : ∀ y, Emits [] x y → ∃ news outs, Effect p (.message s req now) x y news outs :=
    fun y hy => ⟨[], [], Effect.ofQuiet p _ x y hy⟩
  have hs := getBaseRespond_socketId x s req.id route
  cases route with
  | heartbeat => exact quiet _ (Emits.sendRespond x _ _)
  | login =>
    simp only [Proc.handle, Proc.loginHandle, Proc.getUserWithSocket]
    split
    · next userId hu hnone =>
      have he := (Emits.newRef x).trans (Emits.issue x.newRef (.lookupKeys userId
        (.notice (.kick userId) (.login ⟨createUserWithLogin p x.nextRef userId s
          (((x.conns.get s).map Conn.connectTtime).getD []) (natText now), req.id⟩))))
      refine ⟨_, [], Effect.ofEmits p _ x _ _ he ?_ (singleton_chained _) (by simp)⟩
      intro c hc
      rw [List.mem_singleton.mp hc]
      exact .loginStart s req now userId _ asks hu hnone
    · exact quiet _ (Emits.loginRespond x s req.id)
  | logout => exact quiet _ (Emits.sendRespond x _ _)
  | roomList => exact ⟨_, _, Effect.ofIssue p _ x _ (.roomListKeys s req now _ asks) (by simp)⟩
  | roomCreate => exact ⟨_, _, Effect.ofIssue p _ x _ (.addRoomIncr s req now _ asks) (by simp)⟩
  | roomClose => exact ⟨_, _, Effect.ofIssue p _ x _ (.delRoomKeys s req now _ asks) (by simp)⟩
  | roomIn =>
    exact ⟨_, _, Effect.ofIssue p _ x _ (.addRoomUserKeys s req now _ asks hs) (by simp)⟩
  | roomOut =>
    simp only [Proc.handle]
    by_cases hn : (x.ctxRoomId s).isNull = true
    · rw [if_pos hn]
      exact quiet _ (Emits.sendRespond x _ _)
    · rw [if_neg hn]
      exact ⟨_, _, Effect.ofIssue p _ x _ (.roomOut s req now _ asks hs (by simpa using hn))
        (by simp)⟩
  | sendLiveChat =>
    simp only [Proc.handle]
    by_cases hn : (x.ctxRoomId s).isNull = true
    · rw [if_pos hn]
      exact quiet _ (Emits.sendRespond x _ _)
    · rw [if_neg hn]
      exact ⟨_, _, Effect.ofIssue p _ x _ (.broadcastKeys s req now _ asks) (by simp)⟩
  | sendMsg =>
    simp only [Proc.handle, Proc.getUserWithSocket]
    split
    · next user toUserId hu ht =>
      have he := (Emits.issue x (.lookupKeys toUserId (.sendMsg user req.msg))).quiet
        (Emits.sendRespond _ (x.getBaseRespond s req.id .sendMsg) false)
      refine ⟨_, [], Effect.ofEmits p _ x _ _ he ?_ (singleton_chained _) (by simp)⟩
      intro c hc
      rw [List.mem_singleton.mp hc]
      exact .sendMsg s req now user toUserId asks hu
    · exact quiet _ (Emits.sendRespond x _ _)

theorem settle_leaveCalls (x : Proc) (s : Str) : (x.settle s).leaveCalls s = x.leaveCalls s := by
  have hroom : (x.settle s).ctxRoomId s = x.ctxRoomId s := by
    simp only [Proc.ctxRoomId, Proc.settle, Proc.setConn, Table.get_modify, if_true,
      Option.map_map]
    rfl
  simp only [Proc.leaveCalls, hroom]
  rfl

theorem message_effect (p : Pid) (x : Proc) (s : Str) (req : Request) (now : ℕ) (hk : x.Keyed) :
    ∃ news outs, Effect p (.message s req now) x (x.onMessage p s req now) news outs := by
  unfold Proc.onMessage
  split
  · next route hr => exact handle_effect p x s route req now hr
  · exact ⟨[], [], Effect.ofQuiet p _ x x (Emits.refl x)⟩
  · next hr =>
    unfold Proc.rejectConn
    by_cases hs : x.isSettled s = true
    · rw [if_pos hs]
      exact ⟨[], [], Effect.ofQuiet p _ x x (Emits.refl x)⟩
    · rw [if_neg hs]
      have hd : Disconnects (.message s req now) x s :=
        Or.inr (Or.inr ⟨req, now, rfl, hr, by simpa using hs⟩)
      have hset := Emits.settle x s
      obtain ⟨ha, ho, hc⟩ := disconnect_rest (x.settle s) s
      refine ⟨_, _, leave_effect p _ x _ s hk hd ?_ ha ho ?_ ?_⟩
      · rw [disconnect_sent, settle_leaveCalls]
        rfl
      · exact fun t => disconnect_userList (x.settle s) s t hk
      · intro t
        rw [hc]
        exact ConnStep.ofLe _ t (hset.ctx t)

theorem disconnects_sent (p : Pid) (i : Input) (x : Proc) (s : Str) (hk : x.Keyed)
    (hd : Disconnects i x s) : (react p i x).sent = x.sent ++ x.leaveCalls s := by
  rcases hd with rfl | rfl | ⟨req, now, rfl, hr, hs⟩
  · exact (shut_effect p _ x s .closed hk (Or.inl rfl) (Or.inl ⟨rfl, rfl⟩)).sent
  · exact (shut_effect p _ x s .closing hk (Or.inr (Or.inl rfl)) (Or.inr ⟨rfl, rfl⟩)).sent
  · simp only [react, Proc.onMessage, hr, Proc.rejectConn, hs, Bool.false_eq_true, if_false]
    rw [disconnect_sent, settle_leaveCalls]
    rfl

theorem Emits.onPacket (x : Proc) (packet : Packet) : Emits [] x (x.onPacket packet) := by
  unfold Proc.onPacket
  cases x.getUserWithSocket packet.socketId with
  | none => exact Emits.refl x
  | some user =>
    have hb : Emits [] x (x.bumpNotice user) :=
      ⟨by simp [Proc.bumpNotice], rfl, rfl, rfl, CtxLe.refl x⟩
    simp only
    split
    · exact ⟨by simp [Proc.bumpNotice], rfl, rfl, rfl, CtxLe.refl x⟩
    · next z hz =>
      have hsend := hb.quiet (Emits.wsSend _ z _ _ hz)
      by_cases hk : packet.notice.isKick = true
      · rw [if_pos hk]
        exact hsend.quiet (Emits.wsClose z _)
      · rw [if_neg hk]
        exact hsend

/-- The case analysis of the event loop. -/
theorem react_effect (p : Pid) (i : Input) (x : Proc) (hk : x.Keyed)
    (hfresh : ∀ s now, i = .connect s now → x.conns.get s = none) :
    ∃ news outs, Effect p i x (react p i x) news outs := by
  cases i with
  | connect s now =>
    refine ⟨[], [], by simp [react, Proc.onConnect], by simp, by simp, rfl,
      by simp [react, Proc.onConnect], by simp, fun t => Or.inl rfl, by simp, ?_⟩
    intro t
    simp only [react, Proc.onConnect, Table.get_set]
    by_cases ht : t = s
    · subst ht
      rw [if_pos rfl, hfresh t now rfl]
      exact ⟨now, rfl, rfl⟩
    · rw [if_neg ht]
      exact ConnStep.ofLe _ t (CtxLe.refl x t)
  | message s req now => exact message_effect p x s req now hk
  | peerClose s => exact ⟨[], [], Effect.ofQuiet p _ x _ (Emits.wsClose x s)⟩
  | wsError s =>
    exact ⟨_, _, shut_effect p _ x s .closing hk (Or.inr (Or.inl rfl)) (Or.inr ⟨rfl, rfl⟩)⟩
  | wsClose s => exact ⟨_, _, shut_effect p _ x s .closed hk (Or.inl rfl) (Or.inl ⟨rfl, rfl⟩)⟩
  | reply c r => exact reply_effect p x c r
  | packet packet => exact ⟨[], [], Effect.ofQuiet p _ x _ (Emits.onPacket x packet)⟩

end NodeServer

import NodeServer.Proof.Issued

/-! # Responses

Which handler's promise an input resolves, and with which response. All that
the event loop writes to a connection beside that are notices. -/

namespace NodeServer

def Frame.response : Frame → Option ResData
  | .respond resData => some resData
  | .notice _ _ _ => none

def Conn.responses (c : Conn) : List ResData := c.frames.filterMap Frame.response

def Proc.responses (x : Proc) (s : Str) : List ResData :=
  ((x.conns.get s).map Conn.responses).getD []

/-! ### The response of an input -/

def Store.Reply.err : Store.Reply → Option Str
  | .error err => some err
  | _ => none

/- What a room handler makes of the result of its operation. -/
def Handler.result (h : Handler) (data : RespData) : Option Str → Handler
  | none => h.withData data
  | some err => h.withError 16104 err

def notInRoom : Str := "you are not in live room.".toList

def Proc.loginAnswer (x : Proc) (s : Str) (id : ℕ) : Handler :=
  match x.getUserWithSocket s with
  | some user => (x.getBaseRespond s id .login).withData (.login user.socketId user.userId)
  | none => (x.getBaseRespond s id .login).withError 10002 "login fail.".toList

/- A request answered by its handler at once. -/
def Proc.requestAnswer (x : Proc) (s : Str) (req : Request) (route : Route) : Option Handler :=
  let h := x.getBaseRespond s req.id route
  match route with
  | .heartbeat | .logout | .sendMsg => some h
  | .login =>
    match req.userId, x.getUserWithSocket s with
    | some _, none => none
    | _, _ => some (x.loginAnswer s req.id)
  | .roomOut | .sendLiveChat =>
    if (x.ctxRoomId s).isNull then some (h.withError 16105 notInRoom) else none
  | _ => none

/- A request answered in the callback of a call. -/
def Proc.replyAnswer (x : Proc) : Call → Store.Reply → Option Handler
  | .loginSet l, _ => some ((x.addUser l.user).loginAnswer l.user.socketId l.id)
  | .addRoomIncr (some _) h, .error err => some (h.result .empty (some err))
  | .addRoomSet roomId h, r => some (h.result (.room (.num roomId)) r.err)
  | .delRoomKeys (some _) _ _, .array (_ :: _) => none
  | .delRoomKeys (some _) roomId h, _ => some (h.result (.room roomId) (some roomNotExist))
  | .delRoomExec roomId h, r => some (h.result (.room roomId) r.err)
  | .broadcastKeys _ _ _ _, .array (_ :: _) => none
  | .broadcastKeys (some _) _ _ h, _ => some (h.result .empty (some roomNotExist))
  | .broadcastMembers (some _) _ _ h, r => some (h.result .empty r.err)
  | .roomListKeys (some _) h, .array [] => some (h.result (.roomList []) none)
  | .roomListGet _ [] roomList h, .bulk res => some (h.result (.roomList (roomList ++ [res])) none)
  | .addRoomUserKeys (some _) _ _, .array (_ :: _) => none
  | .addRoomUserKeys (some _) roomId h, r =>
    some (h.result (.room roomId) (some (r.err.getD roomNotExist)))
  | .addRoomUserAdd _ roomId h, r => some (h.result (.room roomId) r.err)
  | .delRoomUserRem _ roomId (some h), r => some (h.result (.room roomId) r.err)
  | _, _ => none

/- The handler whose promise an input resolves, with its response. -/
def Proc.answers (x : Proc) : Input → Option Handler
  | .message s req _ =>
    match getRouterByName req.route with
    | some (.handler route) => x.requestAnswer s req route
    | _ => none
  | .reply c r => x.replyAnswer c r
  | _ => none

/- The responses a connection gets when the promise of a handler is resolved. -/
def Proc.written (x : Proc) (s : Str) (answer : Option Handler) : List ResData :=
  match answer with
  | some h => if h.socketId = s ∧ x.ws s = some .opened then [h.resData] else []
  | none => []

/-! ### Stretches that answer nothing -/

def Silent (x y : Proc) : Prop := ∀ s, y.responses s = x.responses s

theorem Silent.refl (x : Proc) : Silent x x := fun _ => rfl

theorem Silent.trans {x y z : Proc} (h : Silent x y) (k : Silent y z) : Silent x z :=
  fun s => (k s).trans (h s)

theorem Silent.ofConns {x y : Proc} (h : y.conns = x.conns) : Silent x y := by
  intro s
  simp only [Proc.responses, h]

theorem Silent.setConn (x : Proc) (s : Str) (f : Conn → Conn)
    (hf : ∀ c, (f c).responses = c.responses) : Silent x (x.setConn s f) := by
  intro t
  simp only [Proc.responses, Proc.setConn, Table.get_modify]
  by_cases ht : t = s
  · subst ht
    cases hc : x.conns.get t with
    | none => simp
    | some c => simp [hf]
  · simp [ht]

theorem Silent.foldl {α : Type} (l : List α) (f : Proc → α → Proc) (hf : ∀ y a, Silent y (f y a))
    (x : Proc) : Silent x (l.foldl f x) := by
  induction l generalizing x with
  | nil => exact Silent.refl x
  | cons a l ih => exact (hf x a).trans (ih (f x a))

theorem Silent.wsClose (x : Proc) (s : Str) : Silent x (x.wsClose s) := by
  apply Silent.setConn
  intro c
  by_cases hc : c.ws = .opened
  · simp only [hc, if_true]
    rfl
  · simp only [hc, if_false]

theorem Silent.wsSend (x y : Proc) (s : Str) (n : ℕ) (notice : Notice) (socketId : Option Str)
    (h : x.wsSend s (.notice n notice socketId) = some y) : Silent x y := by
  unfold Proc.wsSend at h
  split at h
  · cases h
    apply Silent.setConn
    intro c
    simp [Conn.responses, Frame.response]
  · cases h

theorem Silent.sendOne (p : Pid) (notice : Notice) (user : User) (x : Proc) :
    Silent x (x.sendOne p notice user) := by
  unfold Proc.sendOne
  by_cases hl : user.appInfo = appInfo p
  · simp only [hl, if_true, Proc.noticeSend]
    by_cases hw : user.websocket = true
    · simp only [hw, if_true]
      cases hsend : (x.bumpNotice user).wsSend user.socketId
          (.notice (x.noticeId user.ref) notice none) with
      | some y => exact Silent.wsSend (x.bumpNotice user) y _ _ _ _ hsend
      | none => exact Silent.ofConns rfl
    · simp only [hw]
      exact Silent.ofConns rfl
  · simp only [hl, if_false]
    exact Silent.ofConns rfl

theorem Silent.kickOld (userList : List User) (x : Proc) : Silent x (x.kickOld userList) := by
  apply Silent.foldl
  intro y user
  by_cases hw : user.websocket = true
  · simp only [hw, if_true]
    exact Silent.wsClose y _
  · simp only [hw]
    exact Silent.refl y

theorem Silent.notifyOthers (user : User) (notice : Notice) (members : List Str) (x : Proc) :
    Silent x (x.notifyOthers user notice members) := by
  apply Silent.foldl
  intro y u
  by_cases hu : u = user.userId
  · simp only [hu, ne_eq, not_true_eq_false, if_false]
    exact Silent.refl y
  · simp only [ne_eq, hu, not_false_eq_true, if_true]
    exact Silent.ofConns rfl

theorem Silent.lookupDone (p : Pid) (next : LookupFor) (userList : List User) (x : Proc) :
    Silent x (x.lookupDone p next userList) := by
  cases next with
  | notice notice after =>
    have hsend : Silent x (x.sendAll p notice userList) :=
      Silent.foldl userList _ (fun y user => Silent.sendOne p notice user y) x
    cases after with
    | nobody => exact hsend
    | login l => exact hsend.trans (Silent.ofConns rfl)
  | loginKick l => exact (Silent.kickOld userList x).trans (Silent.ofConns rfl)
  | sendMsg user msg =>
    have hone : ∀ (y : Proc) (des : User),
        Silent y (y.senderSend des.userId (sendMsgNotice user.userId msg)) :=
      fun _ _ => Silent.ofConns rfl
    exact Silent.foldl userList _ hone x

theorem Silent.lookupLoop (p : Pid) (next : LookupFor) (res : List Str) (userList : List User)
    (x : Proc) : Silent x (x.lookupLoop p next res userList) := by
  cases res with
  | nil => exact Silent.lookupDone p next userList x
  | cons key rest => exact Silent.ofConns rfl

theorem Silent.disconnect (x : Proc) (s : Str) : Silent x (x.disconnect s) :=
  Silent.ofConns (disconnect_rest x s).2.2

theorem Silent.settle (x : Proc) (s : Str) : Silent x (x.settle s) :=
  Silent.setConn x s _ fun _ => rfl

theorem Silent.rejectConn (x : Proc) (s : Str) : Silent x (x.rejectConn s) := by
  unfold Proc.rejectConn
  split
  · exact Silent.refl x
  · exact (Silent.settle x s).trans (Silent.disconnect _ s)

theorem Silent.shut (x : Proc) (s : Str) (ws : WsState) :
    Silent x (((x.setWs s ws).disconnect s).rejectConn s) := by
  have hws : Silent x (x.setWs s ws) := Silent.setConn x s _ fun _ => rfl
  exact (hws.trans (Silent.disconnect _ s)).trans (Silent.rejectConn _ s)

theorem Silent.onPacket (x : Proc) (packet : Packet) : Silent x (x.onPacket packet) := by
  unfold Proc.onPacket
  split
  · exact Silent.refl x
  · next user _ =>
    dsimp only
    split
    · exact Silent.ofConns rfl
    · next z hsend =>
      have hz : Silent x z := Silent.wsSend (x.bumpNotice user) z _ _ _ _ hsend
      split
      · exact hz.trans (Silent.wsClose z _)
      · exact hz

/-! ### What an input answers -/

/- From `x`, with the sockets as they are in `x`, exactly `answer` is written. -/
def Answers (x y : Proc) (answer : Option Handler) : Prop :=
  ∀ s, y.responses s = x.responses s ++ x.written s answer

theorem Answers.ofSilent {x y : Proc} (h : Silent x y) : Answers x y none := by
  intro s
  rw [h s]
  simp [Proc.written]

theorem Silent.answers {x y z : Proc} {answer : Option Handler} (h : Silent x y)
    (hws : ∀ s, y.ws s = x.ws s) (k : Answers y z answer) : Answers x z answer := by
  intro s
  rw [k s, h s]
  simp only [Proc.written, hws]

theorem Answers.silent {x y z : Proc} {answer : Option Handler} (h : Answers x y answer)
    (k : Silent y z) : Answers x z answer := by
  intro s
  rw [k s, h s]

theorem wsSend_answers (x y : Proc) (h : Handler)
    (hsend : x.wsSend h.socketId (.respond h.resData) = some y) : Answers x y (some h) := by
  unfold Proc.wsSend at hsend
  split at hsend
  · next hopen =>
    cases hsend
    intro s
    obtain ⟨c, hc, _⟩ := Option.map_eq_some_iff.mp hopen
    simp only [Proc.responses, Proc.setConn, Table.get_modify, Proc.written]
    by_cases hs : s = h.socketId
    · subst hs
      simp [hc, hopen, Conn.responses, Frame.response]
    · simp [hs, Ne.symm hs]
  · cases hsend

theorem sendRespond_answers (x : Proc) (h : Handler) (isKick : Bool) :
    Answers x (x.sendRespond h isKick) (some h) := by
  unfold Proc.sendRespond
  cases hsend : x.wsSend h.socketId (.respond h.resData) with
  | none =>
    have hclosed : x.ws h.socketId ≠ some .opened := by
      intro hopen
      simp [Proc.wsSend, hopen] at hsend
    intro s
    have hnot : ¬ (h.socketId = s ∧ x.ws s = some .opened) := by
      rintro ⟨rfl, hopen⟩
      exact hclosed hopen
    simp only [Proc.written, hnot, if_false, List.append_nil]
  | some y =>
    have hy := wsSend_answers x y h hsend
    dsimp only
    cases isKick with
    | false => exact hy.silent (Silent.settle y _)
    | true => exact hy.silent ((Silent.wsClose y _).trans (Silent.settle _ _))

theorem roomResult_answers (x : Proc) (h : Handler) (data : RespData) (err : Option Str) :
    Answers x (x.roomResult h data err) (some (h.result data err)) := by
  cases err with
  | none => exact sendRespond_answers x _ false
  | some err => exact sendRespond_answers x _ false

theorem setConn_ws (x : Proc) (s t : Str) (f : Conn → Conn) (hf : ∀ c, (f c).ws = c.ws) :
    (x.setConn s f).ws t = x.ws t := by
  simp only [Proc.ws, Proc.setConn, Table.get_modify]
  by_cases ht : t = s
  · subst ht
    simp [Function.comp_def, hf]
  · simp [ht]

theorem noteRoom_answers (x : Proc) (h : Handler) (roomId : JsVal) (data : RespData) :
    Answers x ((x.setConn h.socketId fun c => { c with roomId := roomId }).roomResult h data none)
      (some (h.result data none)) := by
  have hs : Silent x (x.setConn h.socketId fun c => { c with roomId := roomId }) :=
    Silent.setConn x _ _ fun _ => rfl
  exact hs.answers (fun t => setConn_ws x _ t _ fun _ => rfl) (roomResult_answers _ h data none)

theorem loginRespond_answers (x : Proc) (s : Str) (n : ℕ) :
    Answers x (x.loginRespond s n) (some (x.loginAnswer s n)) := by
  unfold Proc.loginRespond Proc.loginAnswer
  cases x.getUserWithSocket s with
  | none => exact sendRespond_answers x _ false
  | some user =>
    have hs : Silent x (x.setConn s fun c => { c with userId := some user.userId }) :=
      Silent.setConn x _ _ fun _ => rfl
    exact hs.answers (fun t => setConn_ws x _ t _ fun _ => rfl) (sendRespond_answers _ _ false)

theorem notifyAll_answers (x : Proc) (notice : Notice) (members : List Str) (h : Handler)
    (data : RespData) (err : Option Str) :
    Answers x ((x.notifyAll notice members).roomResult h data err) (some (h.result data err)) := by
  have hconns : (x.notifyAll notice members).conns = x.conns := by
    unfold Proc.notifyAll
    induction members generalizing x with
    | nil => rfl
    | cons m ms ih => exact ih (x.senderSend m notice)
  exact (Silent.ofConns hconns).answers (fun s => by simp only [Proc.ws, hconns])
    (roomResult_answers _ h data err)

theorem roomListLoop_answers (x : Proc) (res roomList : List Str) (h : Handler) :
    Answers x (x.roomListLoop (fun l => Proc.roomResult h (.roomList l) none) res roomList h)
      (match res with
        | [] => some (h.result (.roomList roomList) none)
        | _ :: _ => none) := by
  cases res with
  | nil => exact roomResult_answers x h _ none
  | cons key rest => exact Answers.ofSilent (Silent.ofConns rfl)

theorem reply_answers (p : Pid) (x : Proc) (c : Call) (r : Store.Reply) :
    Answers x (x.onReply p c r) (x.replyAnswer c r) := by
  have same : ∀ y, y.conns = x.conns → Answers x y none :=
    fun y hy => Answers.ofSilent (Silent.ofConns hy)
  cases c with
  | lookupKeys userId next =>
    refine Answers.ofSilent ?_
    cases r with
    | array res => exact Silent.lookupLoop p next res [] x
    | _ => exact Silent.lookupDone p next [] x
  | lookupHash key rest userList next =>
    refine Answers.ofSilent ?_
    cases r with
    | hash res =>
      have hnew : Silent x x.newRef := Silent.ofConns rfl
      exact hnew.trans (Silent.lookupLoop p next rest _ x.newRef)
    | _ => exact Silent.refl x
  | loginSet l =>
    have hadd : Silent x (x.addUser l.user) := Silent.ofConns rfl
    exact hadd.answers (fun _ => rfl) (loginRespond_answers _ _ _)
  | logoutDel user => exact same x rfl
  | addRoomIncr user h =>
    cases user with
    | none => exact same x rfl
    | some user =>
      cases r with
      | error err => exact roomResult_answers x h .empty (some err)
      | _ => exact same _ rfl
  | addRoomSet roomId h =>
    cases r with
    | error err => exact roomResult_answers x h _ (some err)
    | _ => exact roomResult_answers x h _ none
  | delRoomKeys user roomId h =>
    cases user with
    | none => exact same x rfl
    | some user =>
      cases r with
      | array res =>
        cases res with
        | nil => exact roomResult_answers x h _ (some roomNotExist)
        | cons k ks => exact same _ rfl
      | _ => exact roomResult_answers x h _ (some roomNotExist)
  | delRoomExec roomId h =>
    simp only [Proc.onReply, Proc.onDelRoomExec]
    split
    · exact roomResult_answers x h _ (some _)
    · exact notifyAll_answers x _ _ h _ none
    · next hr _ =>
      have herr : r.err = none := by
        cases r with
        | error err => exact absurd rfl (hr err)
        | _ => rfl
      simp only [Proc.replyAnswer, herr]
      exact roomResult_answers x h _ none
  | broadcastKeys user roomId msg h =>
    cases r with
    | array res =>
      cases res with
      | nil =>
        cases user with
        | none => exact same x rfl
        | some user => exact roomResult_answers x h _ (some roomNotExist)
      | cons k ks => exact same _ rfl
    | _ =>
      cases user with
      | none => exact same x rfl
      | some user => exact roomResult_answers x h _ (some roomNotExist)
  | broadcastMembers user roomId msg h =>
    cases user with
    | none => exact same x rfl
    | some user =>
      cases r with
      | error err => exact roomResult_answers x h _ (some err)
      | array res => exact notifyAll_answers x _ _ h _ none
      | _ => exact roomResult_answers x h _ none
  | roomListKeys user h =>
    cases user with
    | none => exact same x rfl
    | some user =>
      cases r with
      | array res =>
        cases res with
        | nil => exact roomListLoop_answers x [] [] h
        | cons key rest => exact roomListLoop_answers x (key :: rest) [] h
      | _ => exact same x rfl
  | roomListGet key rest roomList h =>
    cases r with
    | bulk res =>
      cases rest with
      | nil => exact roomListLoop_answers x [] _ h
      | cons key rest => exact roomListLoop_answers x (key :: rest) _ h
    | _ =>
      cases rest with
      | nil => exact same x rfl
      | cons key rest => exact same x rfl
  | addRoomUserKeys user roomId h =>
    cases user with
    | none => exact same x rfl
    | some user =>
      cases r with
      | error err => exact roomResult_answers x h _ (some err)
      | array res =>
        cases res with
        | nil => exact roomResult_answers x h _ (some roomNotExist)
        | cons k ks => exact same _ rfl
      | _ => exact roomResult_answers x h _ (some roomNotExist)
  | addRoomUserMembers user roomId h =>
    refine Answers.ofSilent ?_
    cases r with
    | array res => exact (Silent.notifyOthers user _ res x).trans (Silent.ofConns rfl)
    | _ => exact Silent.ofConns rfl
  | addRoomUserAdd user roomId h =>
    cases r with
    | error err => exact roomResult_answers x h _ (some err)
    | _ => exact noteRoom_answers x h roomId _
  | delRoomUserMembers user roomId h =>
    refine Answers.ofSilent ?_
    cases user with
    | none => exact Silent.refl x
    | some user =>
      cases r with
      | array res => exact (Silent.notifyOthers user _ res x).trans (Silent.ofConns rfl)
      | _ => exact Silent.ofConns rfl
  | delRoomUserRem user roomId h =>
    cases h with
    | none =>
      cases r with
      | _ => exact same x rfl
    | some h =>
      cases r with
      | error err => exact roomResult_answers x h _ (some err)
      | _ => exact noteRoom_answers x h .undefined _

theorem handle_answers (p : Pid) (x : Proc) (s : Str) (route : Route) (req : Request) (now : ℕ) :
    Answers x (x.handle p s route req now) (x.requestAnswer s req route) := by
  have same : ∀ y, y.conns = x.conns → Answers x y none :=
    fun y hy => Answers.ofSilent (Silent.ofConns hy)
  cases route with
  | heartbeat => exact sendRespond_answers x _ false
  | login =>
    show Answers x (x.loginHandle p s req.id req.userId now) (x.requestAnswer s req .login)
    unfold Proc.loginHandle Proc.requestAnswer
    cases req.userId with
    | none => exact loginRespond_answers x s req.id
    | some u =>
      cases hu : x.getUserWithSocket s with
      | none => exact same _ rfl
      | some user => exact loginRespond_answers x s req.id
  | logout => exact sendRespond_answers x _ _
  | roomList => exact same _ rfl
  | roomCreate => exact same _ rfl
  | roomClose => exact same _ rfl
  | roomIn => exact same _ rfl
  | roomOut =>
    by_cases hn : (x.ctxRoomId s).isNull = true
    · simp only [Proc.handle, Proc.requestAnswer, hn, if_true]
      exact sendRespond_answers x _ false
    · simp only [Proc.handle, Proc.requestAnswer, hn]
      exact same _ rfl
  | sendLiveChat =>
    by_cases hn : (x.ctxRoomId s).isNull = true
    · simp only [Proc.handle, Proc.requestAnswer, hn, if_true]
      exact sendRespond_answers x _ false
    · simp only [Proc.handle, Proc.requestAnswer, hn]
      exact same _ rfl
  | sendMsg =>
    have hq : ∀ u next, Answers x ((x.getUserWithId u next).sendRespond
        (x.getBaseRespond s req.id .sendMsg) false) (some (x.getBaseRespond s req.id .sendMsg)) := by
      intro u next
      have hs : Silent x (x.getUserWithId u next) := Silent.ofConns rfl
      exact hs.answers (fun _ => rfl) (sendRespond_answers _ _ false)
    simp only [Proc.handle, Proc.requestAnswer]
    split
    · exact hq _ _
    · exact sendRespond_answers x _ false

/-- An input writes the response of the handler whose promise it resolves, and
no other. -/
theorem react_answers (p : Pid) (i : Input) (x : Proc)
    (hfresh : ∀ s now, i = .connect s now → x.conns.get s = none) :
    Answers x (react p i x) (x.answers i) := by
  cases i with
  | connect s now =>
    refine Answers.ofSilent ?_
    intro t
    simp only [react, Proc.onConnect, Proc.responses, Table.get_set]
    by_cases ht : t = s
    · subst ht
      rw [hfresh t now rfl]
      simp [Conn.responses]
    · simp [ht]
  | message s req now =>
    simp only [react, Proc.onMessage, Proc.answers]
    split
    · next route hr => simpa only [hr] using handle_answers p x s route req now
    · next hr =>
      simp only [hr]
      exact Answers.ofSilent (Silent.refl x)
    · next hr =>
      simp only [hr]
      exact Answers.ofSilent (Silent.rejectConn x s)
  | peerClose s => exact Answers.ofSilent (Silent.wsClose x s)
  | wsError s => exact Answers.ofSilent (Silent.shut x s .closing)
  | wsClose s => exact Answers.ofSilent (Silent.shut x s .closed)
  | reply c r => exact reply_answers p x c r
  | packet packet => exact Answers.ofSilent (Silent.onPacket x packet)

theorem Handled.responses {w v : World} {e : Event} {p : Pid} {i : Input} {x : Proc}
    (h : Handled w v e p i x) (hw : WF w) (s : Str) :
    (v.procs p).responses s = (w.procs p).responses s ++ x.written s (x.answers i) := by
  have hans := react_answers p i x (by
    intro t now hi
    rw [h.conns]
    by_contra hn
    exact (h.fresh t now hi).1 (hw.ids p t hn)) s
  rw [← h.after] at hans
  rw [hans]
  simp only [Proc.responses, h.conns]

/-- What is answered depends on the connections and the users of the process only. -/
theorem Proc.answers_congr {x y : Proc} (hconns : y.conns = x.conns) (husers : y.userList = x.userList)
    (i : Input) : y.answers i = x.answers i := by
  cases x
  cases y
  cases hconns
  cases husers
  cases i with
  | _ => rfl

theorem Handled.answers {w v : World} {e : Event} {p : Pid} {i : Input} {x : Proc}
    (h : Handled w v e p i x) : x.answers i = (w.procs p).answers i :=
  Proc.answers_congr h.conns h.userList i

theorem Executed.responses {w v : World} {e : Event} {p : Pid} {c : Call} {r : Store.Reply}
    (h : Executed w v e p c r) (q : Pid) (s : Str) :
    (v.procs q).responses s = (w.procs q).responses s := by
  by_cases hq : q = p
  · subst hq
    rw [Proc.responses, Proc.responses, h.conns]
  · rw [h.others q hq]

/-- A room operation answers its own request; only the result is filled in. -/
theorem replyAnswer_handler {x : Proc} {c : Call} {r : Store.Reply} {answer : Handler}
    (h : x.replyAnswer c r = some answer) :
    (∃ l, c = .loginSet l) ∨ ∃ hd data err, c.handler = some hd ∧ answer = hd.result data err := by
  unfold Proc.replyAnswer at h
  split at h
  · exact Or.inl ⟨_, rfl⟩
  all_goals
    first
    | exact Or.inr ⟨_, _, _, rfl, (Option.some.inj h).symm⟩
    | cases h

theorem Handler.result_request (h : Handler) (data : RespData) (err : Option Str) :
    (h.result data err).socketId = h.socketId ∧ (h.result data err).resData.id = h.resData.id ∧
      (h.result data err).resData.route = h.resData.route := by
  cases err with
  | none => exact ⟨rfl, rfl, rfl⟩
  | some err => exact ⟨rfl, rfl, rfl⟩

theorem loginAnswer_request (x : Proc) (s : Str) (n : ℕ) :
    (x.loginAnswer s n).socketId = s ∧ (x.loginAnswer s n).resData.id = n ∧
      (x.loginAnswer s n).resData.route = .login := by
  unfold Proc.loginAnswer Proc.getBaseRespond
  cases x.getUserWithSocket s with
  | none => exact ⟨rfl, rfl, rfl⟩
  | some user => exact ⟨rfl, rfl, rfl⟩

theorem getBaseRespond_request (x : Proc) (s : Str) (n : ℕ) (route : Route) :
    (x.getBaseRespond s n route).socketId = s ∧ (x.getBaseRespond s n route).resData.id = n ∧
      (x.getBaseRespond s n route).resData.route = route := by
  unfold Proc.getBaseRespond
  cases x.getUserWithSocket s with
  | none => exact ⟨rfl, rfl, rfl⟩
  | some user => exact ⟨rfl, rfl, rfl⟩

/-- A request is answered on its connection, with its id and route. -/
theorem requestAnswer_request {x : Proc} {s : Str} {req : Request} {route : Route} {answer : Handler}
    (h : x.requestAnswer s req route = some answer) :
    answer.socketId = s ∧ answer.resData.id = req.id ∧ answer.resData.route = route := by
  have base := getBaseRespond_request x s req.id route
  unfold Proc.requestAnswer at h
  split at h
  · exact Option.some.inj h ▸ base
  · exact Option.some.inj h ▸ base
  · exact Option.some.inj h ▸ base
  · split at h
    · cases h
    · exact Option.some.inj h ▸ loginAnswer_request x s req.id
  · split at h
    · exact Option.some.inj h ▸ base
    · cases h
  · split at h
    · exact Option.some.inj h ▸ base
    · cases h
  · cases h

end NodeServer

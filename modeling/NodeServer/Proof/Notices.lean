import NodeServer.Proof.Responses

/-! # Notice frames

Which notice frames an input writes, in order, each with the `User` object it is
written for. Everything else the event loop does leaves the notices of a
connection, the notice counters and the object identities alone. -/

namespace NodeServer

def Frame.isNotice : Frame → Bool
  | .notice _ _ _ => true
  | .respond _ => false

def Conn.notices (c : Conn) : List Frame := c.frames.filter Frame.isNotice

/- The notice frames written to a connection so far. -/
def Proc.noticed (x : Proc) (s : Str) : List Frame := ((x.conns.get s).map Conn.notices).getD []

/-! ### Stretches without notices -/

/- From `x` to `y` no notice is written or counted and no object is created. -/
structure Quiet (x y : Proc) : Prop where
  noticed : ∀ s, y.noticed s = x.noticed s
  noticeId : y.noticeId = x.noticeId
  nextRef : y.nextRef = x.nextRef

theorem Quiet.refl (x : Proc) : Quiet x x := ⟨fun _ => rfl, rfl, rfl⟩

theorem Quiet.trans {x y z : Proc} (h : Quiet x y) (k : Quiet y z) : Quiet x z :=
  ⟨fun s => (k.noticed s).trans (h.noticed s), k.noticeId.trans h.noticeId,
    k.nextRef.trans h.nextRef⟩

theorem Quiet.ofConns {x y : Proc} (hc : y.conns = x.conns) (hn : y.noticeId = x.noticeId)
    (hr : y.nextRef = x.nextRef) : Quiet x y := by
  refine ⟨?_, hn, hr⟩
  intro s
  simp only [Proc.noticed, hc]

theorem Quiet.setConn (x : Proc) (s : Str) (f : Conn → Conn)
    (hf : ∀ c, (f c).notices = c.notices) : Quiet x (x.setConn s f) := by
  refine ⟨?_, rfl, rfl⟩
  intro t
  simp only [Proc.noticed, Proc.setConn, Table.get_modify]
  by_cases ht : t = s
  · subst ht
    cases hc : x.conns.get t with
    | none => simp
    | some c => simp [hf]
  · simp [ht]

theorem Quiet.foldl {α : Type} (l : List α) (f : Proc → α → Proc)
    (hf : ∀ y a, Quiet y (f y a)) (x : Proc) : Quiet x (l.foldl f x) := by
  induction l generalizing x with
  | nil => exact Quiet.refl x
  | cons a l ih => exact (hf x a).trans (ih (f x a))

theorem Quiet.issue (x : Proc) (c : Call) : Quiet x (x.issue c) := Quiet.ofConns rfl rfl rfl

theorem Quiet.wsClose (x : Proc) (s : Str) : Quiet x (x.wsClose s) := by
  apply Quiet.setConn
  intro c
  by_cases hc : c.ws = .opened
  · simp only [hc, if_true]
    rfl
  · simp only [hc, if_false]

theorem Quiet.settle (x : Proc) (s : Str) : Quiet x (x.settle s) :=
  Quiet.setConn x s _ fun _ => rfl

theorem Quiet.disconnect (x : Proc) (s : Str) : Quiet x (x.disconnect s) := by
  unfold Proc.disconnect
  split
  · exact Quiet.refl x
  · split
    · exact Quiet.ofConns rfl rfl rfl
    · exact Quiet.ofConns rfl rfl rfl

theorem Quiet.rejectConn (x : Proc) (s : Str) : Quiet x (x.rejectConn s) := by
  unfold Proc.rejectConn
  split
  · exact Quiet.refl x
  · exact (Quiet.settle x s).trans (Quiet.disconnect _ s)

theorem Quiet.shut (x : Proc) (s : Str) (ws : WsState) :
    Quiet x (((x.setWs s ws).disconnect s).rejectConn s) := by
  have hws : Quiet x (x.setWs s ws) := Quiet.setConn x s _ fun _ => rfl
  exact (hws.trans (Quiet.disconnect _ s)).trans (Quiet.rejectConn _ s)

theorem Quiet.sendRespond (x : Proc) (h : Handler) (isKick : Bool) :
    Quiet x (x.sendRespond h isKick) := by
  unfold Proc.sendRespond
  split
  · exact Quiet.refl x
  · next y hsend =>
    have hy : Quiet x y := by
      unfold Proc.wsSend at hsend
      split at hsend
      · cases hsend
        apply Quiet.setConn
        intro c
        simp [Conn.notices, Frame.isNotice]
      · cases hsend
    split
    · exact (hy.trans (Quiet.wsClose y _)).trans (Quiet.settle _ _)
    · exact hy.trans (Quiet.settle _ _)

theorem Quiet.roomResult (x : Proc) (h : Handler) (data : RespData) (err : Option Str) :
    Quiet x (x.roomResult h data err) := by
  cases err with
  | none => exact Quiet.sendRespond x _ false
  | some err => exact Quiet.sendRespond x _ false

theorem Quiet.roomInResult (x : Proc) (h : Handler) (roomId : JsVal) (err : Option Str) :
    Quiet x (x.roomInResult h roomId err) := by
  cases err with
  | none =>
    exact (Quiet.setConn x h.socketId (fun c => { c with roomId := roomId }) fun _ => rfl).trans
      (Quiet.roomResult _ h (.room roomId) none)
  | some err => exact Quiet.roomResult x h (.room roomId) (some err)

theorem Quiet.roomOutResult (x : Proc) (h : Option Handler) (roomId : JsVal) (err : Option Str) :
    Quiet x (x.roomOutResult h roomId err) := by
  cases h with
  | none => cases err <;> exact Quiet.refl x
  | some h =>
    cases err with
    | none =>
      exact (Quiet.setConn x h.socketId (fun c => { c with roomId := .undefined })
        fun _ => rfl).trans (Quiet.roomResult _ h (.room roomId) none)
    | some err => exact Quiet.roomResult x h (.room roomId) (some err)

theorem Quiet.loginRespond (x : Proc) (s : Str) (n : ℕ) : Quiet x (x.loginRespond s n) := by
  unfold Proc.loginRespond
  split
  · next user _ =>
    exact (Quiet.setConn x s (fun c => { c with userId := some user.userId }) fun _ => rfl).trans
      (Quiet.sendRespond _ _ false)
  · exact Quiet.sendRespond x _ false

theorem Quiet.kickOld (userList : List User) (x : Proc) : Quiet x (x.kickOld userList) := by
  apply Quiet.foldl
  intro y user
  by_cases hw : user.websocket = true
  · simp only [hw, if_true]
    exact Quiet.wsClose y _
  · simp only [hw]
    exact Quiet.refl y

theorem Quiet.notifyOthers (user : User) (notice : Notice) (members : List Str) (x : Proc) :
    Quiet x (x.notifyOthers user notice members) := by
  apply Quiet.foldl
  intro y u
  by_cases hu : u = user.userId
  · simp only [hu, ne_eq, not_true_eq_false, if_false]
    exact Quiet.refl y
  · simp only [ne_eq, hu, not_false_eq_true, if_true]
    exact Quiet.issue y _

theorem Quiet.notifyAll (notice : Notice) (members : List Str) (x : Proc) :
    Quiet x (x.notifyAll notice members) := by
  apply Quiet.foldl
  intro y u
  exact Quiet.issue y _

theorem Quiet.roomListLoop (x : Proc) (res roomList : List Str) (h : Handler) :
    Quiet x (x.roomListLoop (fun l => Proc.roomResult h (.roomList l) none) res roomList h) := by
  cases res with
  | nil => exact Quiet.roomResult x h _ none
  | cons key rest => exact Quiet.issue x _

/-! ### The part of an input that counts -/

/- Up to the end of the loop of `NoticeSender.send`. -/
def Proc.afterNotices (p : Pid) (next : LookupFor) (userList : List User) (x : Proc) : Proc :=
  match next with
  | .notice notice _ => x.sendAll p notice userList
  | _ => x

/- The objects an input creates and the notices it writes. -/
def Proc.counted (p : Pid) (x : Proc) : Input → Proc
  | .message s req _ =>
    match getRouterByName req.route, req.userId, x.getUserWithSocket s with
    | some (.handler .login), some _, none => x.newRef
    | _, _, _ => x
  | .reply (.lookupHash _ [] userList next) (.hash res) =>
    x.newRef.afterNotices p next (userList ++ [x.getUserWithRedis res])
  | .reply (.lookupHash _ (_ :: _) _ _) (.hash _) => x.newRef
  | .packet packet => x.onPacket packet
  | _ => x

theorem Quiet.lookupDone (p : Pid) (next : LookupFor) (userList : List User) (x : Proc) :
    Quiet (x.afterNotices p next userList) (x.lookupDone p next userList) := by
  cases next with
  | notice notice after =>
    cases after with
    | nobody => exact Quiet.refl _
    | login l => exact Quiet.issue _ _
  | loginKick l => exact (Quiet.kickOld userList x).trans (Quiet.issue _ _)
  | sendMsg user msg =>
    apply Quiet.foldl
    intro y des
    exact Quiet.issue y _

theorem afterNotices_nil (p : Pid) (next : LookupFor) (x : Proc) : x.afterNotices p next [] = x := by
  cases next with
  | notice | loginKick | sendMsg => rfl

theorem Quiet.onLookupKeys (p : Pid) (next : LookupFor) (r : Store.Reply) (x : Proc) :
    Quiet x (x.onLookupKeys p next r) := by
  have hdone := Quiet.lookupDone p next [] x
  rw [afterNotices_nil] at hdone
  cases r with
  | array res =>
    cases res with
    | nil => exact hdone
    | cons key rest => exact Quiet.issue x _
  | _ => exact hdone

theorem Quiet.onLookupHash (p : Pid) (key : Str) (next : LookupFor) (rest : List Str)
    (userList : List User) (r : Store.Reply) (x : Proc) :
    Quiet (x.counted p (.reply (.lookupHash key rest userList next) r))
      (x.onLookupHash p next rest userList r) := by
  cases r with
  | hash res =>
    cases rest with
    | nil => exact Quiet.lookupDone p next _ x.newRef
    | cons key' rest => exact Quiet.issue _ _
  | _ => cases rest <;> exact Quiet.refl x

/-- The callbacks of the room operations write responses only; their notices go
through lookups. -/
theorem Quiet.reply (p : Pid) (x : Proc) (c : Call) (r : Store.Reply) :
    Quiet (x.counted p (.reply c r)) (x.onReply p c r) := by
  cases c with
  | lookupKeys userId next => exact Quiet.onLookupKeys p next r x
  | lookupHash key rest userList next => exact Quiet.onLookupHash p key next rest userList r x
  | loginSet l =>
    have hadd : Quiet x (x.addUser l.user) := Quiet.ofConns rfl rfl rfl
    exact hadd.trans (Quiet.loginRespond _ _ _)
  | logoutDel user => exact Quiet.refl x
  | addRoomIncr user h =>
    simp only [Proc.onReply, Proc.onAddRoomIncr, Proc.counted]
    split
    · exact Quiet.refl x
    · exact Quiet.roomResult x h _ _
    · exact Quiet.issue x _
    · exact Quiet.issue x _
  | addRoomSet roomId h =>
    simp only [Proc.onReply, Proc.onAddRoomSet, Proc.counted]
    split
    · exact Quiet.roomResult x h _ _
    · exact Quiet.roomResult x h _ _
  | delRoomKeys user roomId h =>
    simp only [Proc.onReply, Proc.onDelRoomKeys, Proc.counted]
    split
    · exact Quiet.refl x
    · exact Quiet.issue x _
    · exact Quiet.roomResult x h _ _
  | delRoomExec roomId h =>
    simp only [Proc.onReply, Proc.onDelRoomExec, Proc.counted]
    split
    · exact Quiet.roomResult x h _ _
    · exact (Quiet.notifyAll _ _ x).trans (Quiet.roomResult _ h _ _)
    · exact Quiet.roomResult x h _ _
  | broadcastKeys user roomId msg h =>
    simp only [Proc.onReply, Proc.onBroadcastKeys, Proc.counted]
    split
    · exact Quiet.issue x _
    · exact Quiet.refl x
    · exact Quiet.roomResult x h _ _
  | broadcastMembers user roomId msg h =>
    simp only [Proc.onReply, Proc.onBroadcastMembers, Proc.counted]
    split
    · exact Quiet.refl x
    · exact Quiet.roomResult x h _ _
    · exact (Quiet.notifyAll _ _ x).trans (Quiet.roomResult _ h _ _)
    · exact Quiet.roomResult x h _ _
  | roomListKeys user h =>
    simp only [Proc.onReply, Proc.onRoomListKeys, Proc.counted]
    split
    · exact Quiet.roomListLoop x _ _ h
    · exact Quiet.refl x
  | roomListGet key rest roomList h =>
    simp only [Proc.onReply, Proc.onRoomListGet, Proc.counted]
    split
    · exact Quiet.roomListLoop x _ _ h
    · exact Quiet.refl x
  | addRoomUserKeys user roomId h =>
    simp only [Proc.onReply, Proc.onAddRoomUserKeys, Proc.counted]
    split
    · exact Quiet.refl x
    · exact Quiet.roomInResult x h _ _
    · exact Quiet.issue x _
    · exact Quiet.roomInResult x h _ _
  | addRoomUserMembers user roomId h =>
    simp only [Proc.onReply, Proc.onAddRoomUserMembers, Proc.counted]
    split
    · exact (Quiet.notifyOthers user _ _ x).trans (Quiet.issue _ _)
    · exact Quiet.issue x _
  | addRoomUserAdd user roomId h =>
    simp only [Proc.onReply, Proc.counted]
    split
    · exact Quiet.roomInResult x h _ _
    · exact Quiet.roomInResult x h _ _
  | delRoomUserMembers user roomId h =>
    simp only [Proc.onReply, Proc.onDelRoomUserMembers, Proc.counted]
    split
    · exact Quiet.refl x
    · exact (Quiet.notifyOthers _ _ _ x).trans (Quiet.issue _ _)
    · exact Quiet.issue x _
  | delRoomUserRem user roomId h =>
    simp only [Proc.onReply, Proc.counted]
    split
    · exact Quiet.roomOutResult x h _ _
    · exact Quiet.roomOutResult x h _ _

/- Requests other than a login. -/
theorem Quiet.handle (p : Pid) (x : Proc) (s : Str) (route : Route) (req : Request) (now : ℕ)
    (hroute : route ≠ .login) : Quiet x (x.handle p s route req now) := by
  cases route with
  | heartbeat | logout => exact Quiet.sendRespond x _ _
  | login => exact absurd rfl hroute
  | roomList | roomCreate | roomClose | roomIn => exact Quiet.issue x _
  | roomOut | sendLiveChat =>
    simp only [Proc.handle]
    split
    · exact Quiet.sendRespond x _ false
    · exact Quiet.issue x _
  | sendMsg =>
    simp only [Proc.handle]
    split
    · exact (Quiet.issue x _).trans (Quiet.sendRespond _ _ false)
    · exact Quiet.sendRespond x _ false

theorem Quiet.message (p : Pid) (x : Proc) (s : Str) (req : Request) (now : ℕ) :
    Quiet (x.counted p (.message s req now)) (x.onMessage p s req now) := by
  cases hroute : getRouterByName req.route with
  | none =>
    simp only [Proc.counted, Proc.onMessage, hroute]
    exact Quiet.rejectConn x s
  | some entry =>
    cases entry with
    | inherited =>
      simp only [Proc.counted, Proc.onMessage, hroute]
      exact Quiet.refl x
    | handler route =>
      by_cases hlogin : route = .login
      · subst hlogin
        simp only [Proc.counted, Proc.onMessage, hroute, Proc.handle, Proc.loginHandle]
        cases hid : req.userId with
        | none => exact Quiet.loginRespond x s _
        | some userId =>
          cases hu : x.getUserWithSocket s with
          | none => exact Quiet.issue _ _
          | some user => exact Quiet.loginRespond x s _
      · have hcounted : x.counted p (.message s req now) = x := by
          simp only [Proc.counted, hroute]
          split
          · next heq _ _ =>
            cases heq
            exact absurd rfl hlogin
          · rfl
        rw [hcounted]
        simp only [Proc.onMessage, hroute]
        exact Quiet.handle p x s route req now hlogin

/-- Apart from what `counted` shows, an input is quiet. -/
theorem react_quiet (p : Pid) (i : Input) (x : Proc)
    (hfresh : ∀ s now, i = .connect s now → x.conns.get s = none) :
    Quiet (x.counted p i) (react p i x) := by
  cases i with
  | connect s now =>
    refine ⟨?_, rfl, rfl⟩
    intro t
    by_cases ht : t = s
    · subst ht
      simp [react, Proc.onConnect, Proc.noticed, Table.get_set, hfresh t now rfl, Proc.counted,
        Conn.notices]
    · simp [react, Proc.onConnect, Proc.noticed, Table.get_set, ht, Proc.counted]
  | message s req now => exact Quiet.message p x s req now
  | peerClose s => exact Quiet.wsClose x s
  | wsError s => exact Quiet.shut x s .closing
  | wsClose s => exact Quiet.shut x s .closed
  | reply c r => exact Quiet.reply p x c r
  | packet packet => exact Quiet.refl _

/-! ### The notices of an input -/

/- A notice for the user is written by its process. -/
def Proc.Writes (p : Pid) (x : Proc) (user : User) : Prop :=
  user.appInfo = appInfo p ∧ x.Sendable user

instance (p : Pid) (x : Proc) (user : User) : Decidable (x.Writes p user) :=
  inferInstanceAs (Decidable (_ ∧ _))

/- The frames the loop of `NoticeSender.send` writes. -/
def Proc.noticesSent (p : Pid) (notice : Notice) : List User → Proc → List (User × Frame)
  | [], _ => []
  | user :: userList, x =>
    (if x.Writes p user then [(user, .notice (x.noticeId user.ref) notice none)] else []) ++
      noticesSent p notice userList (x.sendOne p notice user)

def Proc.packetNotices (packet : Packet) (x : Proc) : List (User × Frame) :=
  match x.getUserWithSocket packet.socketId with
  | none => []
  | some user =>
    if x.ws user.socketId = some .opened then
      [(user, .notice (x.noticeId user.ref) packet.notice (some packet.socketId))]
    else []

/- The notice frames of an input, each with the object it is written for. -/
def Proc.noticesOf (p : Pid) (x : Proc) : Input → List (User × Frame)
  | .reply (.lookupHash _ [] userList (.notice notice _)) (.hash res) =>
    Proc.noticesSent p notice (userList ++ [x.getUserWithRedis res]) x.newRef
  | .packet packet => x.packetNotices packet
  | _ => []

/- The frames among them for one connection. -/
def framesFor (s : Str) (ws : List (User × Frame)) : List Frame :=
  (ws.filter fun a => a.1.socketId = s).map Prod.snd

theorem framesFor_append (s : Str) (ws ws' : List (User × Frame)) :
    framesFor s (ws ++ ws') = framesFor s ws ++ framesFor s ws' := by
  simp [framesFor]

/- From `x` to `y` exactly these notices are written. -/
def Notifies (x y : Proc) (ws : List (User × Frame)) : Prop :=
  ∀ s, y.noticed s = x.noticed s ++ framesFor s ws

theorem Notifies.trans {x y z : Proc} {ws ws' : List (User × Frame)} (h : Notifies x y ws)
    (k : Notifies y z ws') : Notifies x z (ws ++ ws') := by
  intro s
  rw [k s, h s, framesFor_append, List.append_assoc]

theorem Quiet.notifies {x y : Proc} (h : Quiet x y) : Notifies x y [] := by
  intro s
  simp [h.noticed s, framesFor]

theorem Notifies.quiet {x y z : Proc} {ws : List (User × Frame)} (h : Notifies x y ws)
    (k : Quiet y z) : Notifies x z ws := by
  have hall := h.trans k.notifies
  rwa [List.append_nil] at hall

theorem Notifies.ofConns {x y : Proc} (h : y.conns = x.conns) : Notifies x y [] := by
  intro s
  simp [Proc.noticed, framesFor, h]

theorem Notifies.wsSend (x y : Proc) (user : User) (frame : Frame) (hframe : frame.isNotice = true)
    (h : x.wsSend user.socketId frame = some y) : Notifies x y [(user, frame)] := by
  unfold Proc.wsSend at h
  split at h
  · next hopen =>
    cases h
    intro t
    obtain ⟨c, hc, hcopen⟩ := Option.map_eq_some_iff.mp hopen
    by_cases ht : t = user.socketId
    · subst ht
      simp [Proc.noticed, Proc.setConn, Table.get_modify, hc, Conn.notices, framesFor, hframe]
    · have ht' : user.socketId ≠ t := fun heq => ht heq.symm
      simp [Proc.noticed, Proc.setConn, Table.get_modify, ht, ht', framesFor]
  · cases h

/- One turn of the loop, by whether the user is remote, failing or written to. -/
theorem sendOne_turn (p : Pid) (notice : Notice) (user : User) (x : Proc) :
    (x.Writes p user ∧
      (x.bumpNotice user).wsSend user.socketId (.notice (x.noticeId user.ref) notice none) =
        some (x.sendOne p notice user)) ∨
    (user.appInfo = appInfo p ∧ ¬ x.Sendable user ∧
      x.sendOne p notice user = (x.bumpNotice user).logout user) ∨
    (user.appInfo ≠ appInfo p ∧
      x.sendOne p notice user = x.emit ⟨user.appInfo, user.socketId, notice⟩) := by
  by_cases hl : user.appInfo = appInfo p
  · have hone : x.sendOne p notice user =
        (x.bumpNotice user).noticeSend (x.noticeId user.ref) notice user := if_pos hl
    by_cases hsend : x.Sendable user
    · refine Or.inl ⟨⟨hl, hsend⟩, ?_⟩
      have hwrite : (x.bumpNotice user).wsSend user.socketId
          (.notice (x.noticeId user.ref) notice none) = some ((x.bumpNotice user).setConn
            user.socketId fun c =>
              { c with frames := c.frames ++ [.notice (x.noticeId user.ref) notice none] }) :=
        if_pos hsend.2
      rw [hone]
      simp only [Proc.noticeSend, hsend.1, if_true, hwrite]
    · refine Or.inr (Or.inl ⟨hl, hsend, ?_⟩)
      rw [hone]
      by_cases hw : user.websocket = true
      · have hclosed : (x.bumpNotice user).wsSend user.socketId
            (.notice (x.noticeId user.ref) notice none) = none :=
          if_neg fun hopen => hsend ⟨hw, hopen⟩
        simp only [Proc.noticeSend, hw, if_true, hclosed]
      · simp only [Proc.noticeSend, hw]
        rfl
  · exact Or.inr (Or.inr ⟨hl, if_neg hl⟩)

theorem Notifies.sendOne (p : Pid) (notice : Notice) (user : User) (x : Proc) :
    Notifies x (x.sendOne p notice user)
      (if x.Writes p user then [(user, .notice (x.noticeId user.ref) notice none)] else []) := by
  rcases sendOne_turn p notice user x with ⟨hw, hsend⟩ | ⟨_, hdead, hout⟩ | ⟨hl, hemit⟩
  · rw [if_pos hw]
    exact Notifies.wsSend (x.bumpNotice user) _ user _ rfl hsend
  · rw [if_neg fun h => hdead h.2, hout]
    exact Notifies.ofConns rfl
  · rw [if_neg fun h => hl h.1, hemit]
    exact Notifies.ofConns rfl

theorem Notifies.sendAll (p : Pid) (notice : Notice) (userList : List User) (x : Proc) :
    Notifies x (x.sendAll p notice userList) (Proc.noticesSent p notice userList x) := by
  induction userList generalizing x with
  | nil => exact Notifies.ofConns rfl
  | cons user userList ih =>
    exact (Notifies.sendOne p notice user x).trans (ih (x.sendOne p notice user))

/- The loop writes to users of its list that it can write to. -/
theorem noticesSent_mem {p : Pid} {notice : Notice} {userList : List User} {x : Proc}
    {a : User × Frame} (ha : a ∈ Proc.noticesSent p notice userList x) :
    a.1 ∈ userList ∧ x.Writes p a.1 := by
  induction userList generalizing x with
  | nil => cases ha
  | cons u userList ih =>
    rcases List.mem_append.mp ha with ha | ha
    · split at ha
      · next hw =>
        rw [List.mem_singleton.mp ha]
        exact ⟨List.mem_cons_self .., hw⟩
      · cases ha
    · obtain ⟨hmem, hl, hws, hopen⟩ := ih ha
      rw [(sendOne_spec p notice u x).ws] at hopen
      exact ⟨List.mem_cons_of_mem _ hmem, hl, hws, hopen⟩

/- A forwarded notice, by whether its user is found and written to. -/
theorem onPacket_turn (packet : Packet) (x : Proc) (user : User)
    (hu : x.userList.get packet.socketId = some user) :
    (x.ws user.socketId = some .opened ∧ ∃ z,
      (x.bumpNotice user).wsSend user.socketId
        (.notice (x.noticeId user.ref) packet.notice (some packet.socketId)) = some z ∧
      Quiet z (x.onPacket packet)) ∨
    (x.ws user.socketId ≠ some .opened ∧
      x.onPacket packet = { x.bumpNotice user with uncaught := true }) := by
  have hu' : x.getUserWithSocket packet.socketId = some user := hu
  by_cases hopen : x.ws user.socketId = some .opened
  · have hsend : (x.bumpNotice user).wsSend user.socketId
        (.notice (x.noticeId user.ref) packet.notice (some packet.socketId)) =
          some ((x.bumpNotice user).setConn user.socketId fun c => { c with frames := c.frames ++
            [.notice (x.noticeId user.ref) packet.notice (some packet.socketId)] }) :=
      if_pos hopen
    refine Or.inl ⟨hopen, _, hsend, ?_⟩
    simp only [Proc.onPacket, hu', hsend]
    split
    · exact Quiet.wsClose _ _
    · exact Quiet.refl _
  · have hsend : (x.bumpNotice user).wsSend user.socketId
        (.notice (x.noticeId user.ref) packet.notice (some packet.socketId)) = none :=
      if_neg hopen
    refine Or.inr ⟨hopen, ?_⟩
    simp only [Proc.onPacket, hu', hsend]

theorem Notifies.onPacket (packet : Packet) (x : Proc) :
    Notifies x (x.onPacket packet) (x.packetNotices packet) := by
  unfold Proc.packetNotices
  cases hu : x.getUserWithSocket packet.socketId with
  | none =>
    simp only [Proc.onPacket, hu]
    exact Notifies.ofConns rfl
  | some user =>
    dsimp only
    rcases onPacket_turn packet x user hu with ⟨hopen, z, hsend, hz⟩ | ⟨hclosed, heq⟩
    · rw [if_pos hopen]
      have hsent : Notifies x z [(user, _)] :=
        Notifies.wsSend (x.bumpNotice user) z user _ rfl hsend
      exact hsent.quiet hz
    · rw [if_neg hclosed, heq]
      exact Notifies.ofConns rfl

theorem counted_notifies (p : Pid) (i : Input) (x : Proc) :
    Notifies x (x.counted p i) (x.noticesOf p i) := by
  have hsame : Notifies x x [] := Notifies.ofConns rfl
  have href : Notifies x x.newRef [] := Notifies.ofConns rfl
  cases i with
  | message s req now =>
    simp only [Proc.counted, Proc.noticesOf]
    split
    · exact href
    · exact hsame
  | reply c r =>
    cases c with
    | lookupHash key rest userList next =>
      cases r with
      | hash res =>
        cases rest with
        | nil =>
          cases next with
          | notice notice after => exact href.trans (Notifies.sendAll p notice _ x.newRef)
          | loginKick l => exact href
          | sendMsg user msg => exact href
        | cons key' rest => exact href
      | _ => cases rest <;> cases next <;> exact hsame
    | _ => exact hsame
  | packet packet => exact Notifies.onPacket packet x
  | _ => exact hsame

/-- The notice frames an input writes, on every connection, in order. -/
theorem react_notifies (p : Pid) (i : Input) (x : Proc)
    (hfresh : ∀ s now, i = .connect s now → x.conns.get s = none) :
    Notifies x (react p i x) (x.noticesOf p i) :=
  (counted_notifies p i x).quiet (react_quiet p i x hfresh)

end NodeServer

import NodeServer.Proof.Responses
import NodeServer.Proof.Lookup

/-! # What closes a connection

Which stretches of the event loop change the state of a socket. -/

namespace NodeServer

/-! ### Relations kept by the stretches of the event loop

Most stretches consist of steps that leave the connections alone, note something on
one of them, or write a response. -/

structure Stretch (R : Proc → Proc → Prop) : Prop where
  trans : ∀ {x y z}, R x y → R y z → R x z
  ofConns : ∀ {x y : Proc}, y.conns = x.conns → R x y
  note : ∀ (x : Proc) (s : Str) (f : Conn → Conn), (∀ c, (f c).ws = c.ws) → R x (x.setConn s f)
  respond : ∀ (x : Proc) (h : Handler), R x (x.sendRespond h false)

namespace Stretch

variable {R : Proc → Proc → Prop} (hR : Stretch R)
include hR

theorem refl (x : Proc) : R x x := hR.ofConns rfl

theorem foldl {α : Type} (l : List α) (f : Proc → α → Proc) (hf : ∀ y a, R y (f y a)) (x : Proc) :
    R x (l.foldl f x) := by
  induction l generalizing x with
  | nil => exact hR.refl x
  | cons a l ih => exact hR.trans (hf x a) (ih (f x a))

theorem roomResult (x : Proc) (h : Handler) (data : RespData) (err : Option Str) :
    R x (x.roomResult h data err) := by
  cases err with
  | _ => exact hR.respond x _

theorem roomInResult (x : Proc) (h : Handler) (roomId : JsVal) (err : Option Str) :
    R x (x.roomInResult h roomId err) := by
  cases err with
  | none =>
    have hnote := hR.note x h.socketId (fun c => { c with roomId := roomId }) fun _ => rfl
    exact hR.trans hnote (hR.roomResult _ h (.room roomId) none)
  | some err => exact hR.roomResult x h (.room roomId) (some err)

theorem roomOutResult (x : Proc) (h : Option Handler) (roomId : JsVal) (err : Option Str) :
    R x (x.roomOutResult h roomId err) := by
  cases h with
  | none => exact hR.refl x
  | some h =>
    cases err with
    | none =>
      have hnote := hR.note x h.socketId (fun c => { c with roomId := .undefined })
        fun _ => rfl
      exact hR.trans hnote (hR.roomResult _ h (.room roomId) none)
    | some err => exact hR.roomResult x h (.room roomId) (some err)

theorem loginRespond (x : Proc) (s : Str) (n : ℕ) : R x (x.loginRespond s n) := by
  unfold Proc.loginRespond
  split
  · rename_i user hu
    have hnote := hR.note x s (fun c => { c with userId := some user.userId })
      fun _ => rfl
    exact hR.trans hnote (hR.respond _ _)
  · exact hR.respond x _

theorem notifyAll (notice : Notice) (members : List Str) (x : Proc) :
    R x (x.notifyAll notice members) :=
  hR.foldl members (fun y toUserId => y.senderSend toUserId notice) (fun _ _ => hR.ofConns rfl) x

theorem notifyOthers (user : User) (notice : Notice) (members : List Str) (x : Proc) :
    R x (x.notifyOthers user notice members) := by
  refine hR.foldl members (fun y toUserId =>
    if toUserId ≠ user.userId then y.senderSend toUserId notice else y) (fun y a => ?_) x
  split
  · exact hR.ofConns rfl
  · exact hR.refl y

theorem settle (x : Proc) (s : Str) : R x (x.settle s) :=
  hR.note x s (fun c => { c with settled := true }) fun _ => rfl

theorem disconnect (x : Proc) (s : Str) : R x (x.disconnect s) :=
  hR.ofConns (disconnect_rest x s).2.2

theorem rejectConn (x : Proc) (s : Str) : R x (x.rejectConn s) := by
  unfold Proc.rejectConn
  split
  · exact hR.refl x
  · exact hR.trans (hR.settle x s) (hR.disconnect _ s)

theorem roomListLoop (x : Proc) (res roomList : List Str) (h : Handler) :
    R x (x.roomListLoop (fun l => Proc.roomResult h (.roomList l) none) res roomList h) := by
  cases res with
  | nil => exact hR.roomResult x h (.roomList roomList) none
  | cons key rest => exact hR.ofConns rfl

/-- The callbacks of all calls but those of a lookup. -/
theorem reply (p : Pid) (x : Proc) (c : Call) (r : Store.Reply)
    (hkeys : ∀ userId next, c ≠ .lookupKeys userId next)
    (hhash : ∀ key rest found next, c ≠ .lookupHash key rest found next) :
    R x (x.onReply p c r) := by
  cases c with
  | lookupKeys userId next => exact absurd rfl (hkeys userId next)
  | lookupHash key rest found next => exact absurd rfl (hhash key rest found next)
  | loginSet l =>
    have hadd : R x (x.addUser l.user) := hR.ofConns rfl
    exact hR.trans hadd (hR.loginRespond _ _ _)
  | logoutDel user => exact hR.refl x
  | addRoomIncr user h =>
    simp only [Proc.onReply, Proc.onAddRoomIncr]
    split
    · exact hR.refl x
    · exact hR.roomResult x h _ _
    · exact hR.ofConns rfl
    · exact hR.ofConns rfl
  | addRoomSet roomId h =>
    simp only [Proc.onReply, Proc.onAddRoomSet]
    split
    · exact hR.roomResult x h _ _
    · exact hR.roomResult x h _ _
  | delRoomKeys user roomId h =>
    simp only [Proc.onReply, Proc.onDelRoomKeys]
    split
    · exact hR.refl x
    · exact hR.ofConns rfl
    · exact hR.roomResult x h _ _
  | delRoomExec roomId h =>
    simp only [Proc.onReply, Proc.onDelRoomExec]
    split
    · exact hR.roomResult x h _ _
    · exact hR.trans (hR.notifyAll _ _ x) (hR.roomResult _ h _ _)
    · exact hR.roomResult x h _ _
  | broadcastKeys user roomId msg h =>
    simp only [Proc.onReply, Proc.onBroadcastKeys]
    split
    · exact hR.ofConns rfl
    · exact hR.refl x
    · exact hR.roomResult x h _ _
  | broadcastMembers user roomId msg h =>
    simp only [Proc.onReply, Proc.onBroadcastMembers]
    split
    · exact hR.refl x
    · exact hR.roomResult x h _ _
    · exact hR.trans (hR.notifyAll _ _ x) (hR.roomResult _ h _ _)
    · exact hR.roomResult x h _ _
  | roomListKeys user h =>
    simp only [Proc.onReply, Proc.onRoomListKeys]
    split
    · exact hR.roomListLoop x _ _ h
    · exact hR.refl x
  | roomListGet key rest roomList h =>
    simp only [Proc.onReply, Proc.onRoomListGet]
    split
    · exact hR.roomListLoop x _ _ h
    · exact hR.refl x
  | addRoomUserKeys user roomId h =>
    simp only [Proc.onReply, Proc.onAddRoomUserKeys]
    split
    · exact hR.refl x
    · exact hR.roomInResult x h _ _
    · exact hR.ofConns rfl
    · exact hR.roomInResult x h _ _
  | addRoomUserMembers user roomId h =>
    simp only [Proc.onReply, Proc.onAddRoomUserMembers]
    split
    · exact hR.trans (hR.notifyOthers user _ _ x) (hR.ofConns rfl)
    · exact hR.ofConns rfl
  | addRoomUserAdd user roomId h =>
    simp only [Proc.onReply]
    split
    · exact hR.roomInResult x h _ _
    · exact hR.roomInResult x h _ _
  | delRoomUserMembers user roomId h =>
    simp only [Proc.onReply, Proc.onDelRoomUserMembers]
    split
    · exact hR.refl x
    · exact hR.trans (hR.notifyOthers _ _ _ x) (hR.ofConns rfl)
    · exact hR.ofConns rfl
  | delRoomUserRem user roomId h =>
    simp only [Proc.onReply]
    split
    · exact hR.roomOutResult x h _ _
    · exact hR.roomOutResult x h _ _

/-- All requests but a logout. -/
theorem handle (p : Pid) (x : Proc) (s : Str) (route : Route) (req : Request) (now : ℕ)
    (hroute : route ≠ .logout) : R x (x.handle p s route req now) := by
  cases route with
  | logout => exact absurd rfl hroute
  | heartbeat => exact hR.respond x _
  | login =>
    simp only [Proc.handle, Proc.loginHandle]
    split
    · exact hR.ofConns rfl
    · exact hR.loginRespond x s _
  | roomOut =>
    simp only [Proc.handle]
    split
    · exact hR.respond x _
    · exact hR.ofConns rfl
  | sendLiveChat =>
    simp only [Proc.handle]
    split
    · exact hR.respond x _
    · exact hR.ofConns rfl
  | sendMsg =>
    simp only [Proc.handle]
    split
    · rename_i user toUserId _ _
      have hissue : R x (x.getUserWithId toUserId (.sendMsg user req.msg)) := hR.ofConns rfl
      exact hR.trans hissue (hR.respond _ _)
    · exact hR.respond x _
  | _ => exact hR.ofConns rfl

end Stretch

/-! ### What closes a connection -/

def SocketsKept (x y : Proc) : Prop := ∀ s, y.ws s = x.ws s

theorem socketsKept : Stretch SocketsKept where
  trans := fun h k s => (k s).trans (h s)
  ofConns := fun h s => by simp only [Proc.ws, h]
  note := fun x s f hf t => setConn_ws x s t f hf
  respond := by
    intro x h s
    unfold Proc.sendRespond
    split
    · rfl
    · rename_i y hy
      have hsettle := setConn_ws y h.socketId s (fun c => { c with settled := true }) fun _ => rfl
      exact hsettle.trans (wsSend_ws x y _ _ hy s)

theorem wsClose_other (x : Proc) (s t : Str) (h : t ≠ s) : (x.wsClose s).ws t = x.ws t := by
  simp [Proc.ws, Proc.wsClose, Proc.setConn, Table.get_modify, h]

/-- The second lookup of a login closes the connections of the local users it has found. -/
theorem kickOld_ws (userList : List User) (x : Proc) (s : Str)
    (h : ∀ user ∈ userList, user.websocket = true → user.socketId ≠ s) :
    (x.kickOld userList).ws s = x.ws s := by
  induction userList generalizing x with
  | nil => rfl
  | cons user userList ih =>
    have hrest := ih (if user.websocket then x.wsClose user.socketId else x)
      fun u hu => h u (List.mem_cons_of_mem _ hu)
    refine hrest.trans ?_
    by_cases hws : user.websocket = true
    · simp only [hws, if_true]
      exact wsClose_other x _ s (h user (List.mem_cons_self ..) hws).symm
    · simp only [hws]
      rfl

/- The inputs that can make an open connection close. -/
inductive Closes (i : Input) (x : Proc) (s : Str) : Prop
  | peer (h : i = .peerClose s)
  | failed (h : i = .wsError s)
  | logout (req : Request) (now : ℕ) (asks : Asks i s .logout req now)
      (logged : x.userList.get s ≠ none)
  | login (l : LoginReq) (userList : List User) (user : User)
      (resolves : Resolves i x (.loginKick l) userList) (found : user ∈ userList)
      (held : user.socketId = s)
  | kick (packet : Packet) (h : i = .packet packet) (kicks : packet.notice.isKick = true)
      (held : packet.socketId = s)

theorem lookupDone_closes (p : Pid) (x x₁ : Proc) (i : Input) (next : LookupFor)
    (userList : List User) (s : Str) (hws : SocketsKept x x₁) (hr : Resolves i x next userList)
    (hdiff : (x₁.lookupDone p next userList).ws s ≠ x.ws s) : Closes i x s := by
  cases next with
  | notice notice after =>
    refine absurd ?_ hdiff
    have hafter := socketsKept.ofConns (afterSend_conns after (x₁.sendAll p notice userList)) s
    exact hafter.trans (((sendAll_spec p notice userList x₁).ws s).trans (hws s))
  | loginKick l =>
    by_cases hfound : ∃ user ∈ userList, user.socketId = s
    · obtain ⟨user, hu, hs⟩ := hfound
      exact .login l userList user hr hu hs
    · refine absurd ?_ hdiff
      rw [← hws s]
      refine kickOld_ws userList x₁ s ?_
      intro user hu _ hs
      exact hfound ⟨user, hu, hs⟩
  | sendMsg user msg =>
    refine absurd ?_ hdiff
    rw [← hws s]
    exact socketsKept.ofConns (sendMsgs_conns _ userList x₁) s

theorem lookupKeys_closes (p : Pid) (x : Proc) (userId : Str) (next : LookupFor) (r : Store.Reply)
    (s : Str) (hdiff : (x.onLookupKeys p next r).ws s ≠ x.ws s) :
    Closes (.reply (.lookupKeys userId next) r) x s := by
  have nobody : (∀ k ks, r ≠ .array (k :: ks)) → (x.lookupDone p next []).ws s ≠ x.ws s →
      Closes (.reply (.lookupKeys userId next) r) x s := fun hr hd =>
    lookupDone_closes p x x _ next [] s (socketsKept.refl x) (Or.inl ⟨userId, r, rfl, hr, rfl⟩) hd
  cases r with
  | array res =>
    cases res with
    | nil => exact nobody (by simp) hdiff
    | cons k ks => exact absurd rfl hdiff
  | _ => exact nobody (by simp) hdiff

theorem lookupHash_closes (p : Pid) (x : Proc) (key : Str) (rest : List Str) (found : List User)
    (next : LookupFor) (r : Store.Reply) (s : Str)
    (hdiff : (x.onLookupHash p next rest found r).ws s ≠ x.ws s) :
    Closes (.reply (.lookupHash key rest found next) r) x s := by
  cases r with
  | hash res =>
    cases rest with
    | nil =>
      exact lookupDone_closes p x x.newRef _ next _ s (socketsKept.ofConns rfl)
        (Or.inr ⟨key, found, res, rfl, rfl⟩) hdiff
    | cons k ks => exact absurd rfl hdiff
  | _ => exact absurd rfl hdiff

/-- Of the callbacks only those of a login's second lookup close a connection. -/
theorem reply_closes (p : Pid) (x : Proc) (c : Call) (r : Store.Reply) (s : Str)
    (hdiff : (x.onReply p c r).ws s ≠ x.ws s) : Closes (.reply c r) x s := by
  cases c with
  | lookupKeys userId next => exact lookupKeys_closes p x userId next r s hdiff
  | lookupHash key rest found next => exact lookupHash_closes p x key rest found next r s hdiff
  | _ => exact absurd (socketsKept.reply p x _ r (by simp) (by simp) s) hdiff

theorem sendRespond_ws (x : Proc) (h : Handler) (isKick : Bool) (s : Str)
    (hdiff : (x.sendRespond h isKick).ws s ≠ x.ws s) : isKick = true ∧ h.socketId = s := by
  cases isKick with
  | false => exact absurd (socketsKept.respond x h s) hdiff
  | true =>
    refine ⟨rfl, ?_⟩
    by_contra hs
    refine hdiff ?_
    unfold Proc.sendRespond
    split
    · rfl
    · rename_i y hy
      simp only [if_true]
      rw [socketsKept.settle _ _ s, wsClose_other y _ s (Ne.symm hs)]
      exact wsSend_ws x y _ _ hy s

/-- Of the requests only a logout closes a connection, its own. -/
theorem message_closes (p : Pid) (x : Proc) (t : Str) (req : Request) (now : ℕ) (s : Str)
    (hdiff : (x.onMessage p t req now).ws s ≠ x.ws s) : Closes (.message t req now) x s := by
  unfold Proc.onMessage at hdiff
  cases hr : getRouterByName req.route with
  | none =>
    rw [hr] at hdiff
    exact absurd (socketsKept.rejectConn x t s) hdiff
  | some entry =>
    cases entry with
    | inherited =>
      rw [hr] at hdiff
      exact absurd rfl hdiff
    | handler route =>
      simp only [hr] at hdiff
      by_cases hroute : route = .logout
      · subst hroute
        obtain ⟨hkick, hs⟩ := sendRespond_ws x _ _ s hdiff
        rw [getBaseRespond_socketId] at hs
        subst hs
        refine .logout req now ⟨rfl, hr⟩ ?_
        intro hnone
        rw [Proc.getUserWithSocket, hnone] at hkick
        cases hkick
      · exact absurd (socketsKept.handle p x t route req now hroute s) hdiff

theorem packet_closes (x : Proc) (packet : Packet) (s : Str) (hk : x.Keyed)
    (hdiff : (x.onPacket packet).ws s ≠ x.ws s) : Closes (.packet packet) x s := by
  unfold Proc.onPacket at hdiff
  split at hdiff
  · exact absurd rfl hdiff
  · rename_i user hu
    simp only at hdiff
    split at hdiff
    · exact absurd rfl hdiff
    · rename_i z hz
      have hsent : z.ws s = x.ws s := wsSend_ws _ z _ _ hz s
      split at hdiff
      · rename_i hkick
        refine .kick packet rfl hkick ?_
        by_contra hs
        refine hdiff ((wsClose_other z _ s ?_).trans hsent)
        rw [hk _ user hu]
        exact Ne.symm hs
      · exact absurd hsent hdiff

theorem setWs_other (x : Proc) (s t : Str) (ws : WsState) (h : t ≠ s) :
    (x.setWs s ws).ws t = x.ws t := by
  simp [Proc.ws, Proc.setWs, Proc.setConn, Table.get_modify, h]

theorem shut_other (x : Proc) (s t : Str) (ws : WsState) (h : t ≠ s) :
    (((x.setWs s ws).disconnect s).rejectConn s).ws t = x.ws t :=
  (socketsKept.rejectConn _ s t).trans
    ((socketsKept.disconnect _ s t).trans (setWs_other x s t ws h))

/-- What makes an open connection stop being open. -/
theorem react_closes (p : Pid) (i : Input) (x : Proc) (s : Str) (hk : x.Keyed)
    (hopen : x.ws s = some .opened) (hnot : (react p i x).ws s ≠ some .opened)
    (hclose : i ≠ .wsClose s) : Closes i x s := by
  cases i with
  | connect t now =>
    refine absurd ?_ hnot
    by_cases hts : s = t
    · simp [react, Proc.onConnect, Proc.ws, Table.get_set, hts]
    · simpa [react, Proc.onConnect, Proc.ws, Table.get_set, hts] using hopen
  | message t req now => exact message_closes p x t req now s (hopen ▸ hnot)
  | peerClose t =>
    by_cases hts : s = t
    · exact .peer (by rw [hts])
    · exact absurd ((wsClose_other x t s hts).trans hopen) hnot
  | wsError t =>
    by_cases hts : s = t
    · exact .failed (by rw [hts])
    · exact absurd ((shut_other x t s .closing hts).trans hopen) hnot
  | wsClose t =>
    have hts : s ≠ t := fun h => hclose (by rw [h])
    exact absurd ((shut_other x t s .closed hts).trans hopen) hnot
  | reply c r => exact reply_closes p x c r s (hopen ▸ hnot)
  | packet packet => exact packet_closes x packet s hk (hopen ▸ hnot)

end NodeServer

import NodeServer.Model.System

/-! # What the synchronous stretches leave alone

Most of a process's code touches connections only: it writes frames, notes a
room, settles a promise or closes a socket. `Emits` says that a stretch issued
exactly the given calls and did nothing else beyond that. -/

namespace NodeServer

/-- A socket stays as it was, or goes from open to closing. -/
def WsState.le (a b : WsState) : Prop := b = a ∨ (a = .opened ∧ b = .closing)

/-- A connection keeps its room; its socket only begins to close and its
promise only gets settled. -/
structure Conn.Le (c d : Conn) : Prop where
  ws : c.ws.le d.ws
  settled : c.settled = true → d.settled = true
  roomId : d.roomId = c.roomId

def Conn.LeOpt : Option Conn → Option Conn → Prop
  | none, none => True
  | some c, some d => c.Le d
  | _, _ => False

def CtxLe (x y : Proc) : Prop := ∀ s, Conn.LeOpt (x.conns.get s) (y.conns.get s)

theorem CtxLe.refl (x : Proc) : CtxLe x x := by
  intro s
  cases x.conns.get s with
  | none => trivial
  | some c => exact ⟨Or.inl rfl, id, rfl⟩

theorem WsState.le_trans {a b c : WsState} (h : a.le b) (k : b.le c) : a.le c := by
  rcases h with rfl | ⟨rfl, rfl⟩
  · exact k
  · rcases k with rfl | ⟨hk, _⟩
    · exact Or.inr ⟨rfl, rfl⟩
    · cases hk

theorem Conn.LeOpt.trans {a b c : Option Conn} (h : Conn.LeOpt a b) (k : Conn.LeOpt b c) :
    Conn.LeOpt a c := by
  cases a with
  | none =>
    cases b with
    | none => exact k
    | some b => cases h
  | some a =>
    cases b with
    | none => cases h
    | some b =>
      cases c with
      | none => cases k
      | some c =>
        have h : a.Le b := h
        have k : b.Le c := k
        exact ⟨WsState.le_trans h.ws k.ws, fun hc => k.settled (h.settled hc),
          k.roomId.trans h.roomId⟩

theorem CtxLe.trans {x y z : Proc} (h : CtxLe x y) (k : CtxLe y z) : CtxLe x z :=
  fun s => (h s).trans (k s)

theorem CtxLe.setConn (x : Proc) (s : Str) (f : Conn → Conn)
    (hf : ∀ c : Conn, c.Le (f c)) :
    CtxLe x (x.setConn s f) := by
  intro t
  simp only [Proc.setConn, Table.get_modify]
  by_cases ht : t = s
  · subst ht
    rw [if_pos rfl]
    cases x.conns.get t with
    | none => trivial
    | some c => exact hf c
  · simp only [ht, if_false]
    exact CtxLe.refl x t

/-- The stretch from `x` to `y` issued `news` and otherwise stayed quiet. -/
structure Emits (news : List Call) (x y : Proc) : Prop where
  sent : y.sent = x.sent ++ news
  answered : y.answered = x.answered
  outbox : y.outbox = x.outbox
  userList : y.userList = x.userList
  ctx : CtxLe x y

theorem Emits.refl (x : Proc) : Emits [] x x := ⟨by simp, rfl, rfl, rfl, CtxLe.refl x⟩

theorem Emits.trans {a b : List Call} {x y z : Proc} (h : Emits a x y) (k : Emits b y z) :
    Emits (a ++ b) x z :=
  ⟨by rw [k.sent, h.sent, List.append_assoc], k.answered.trans h.answered,
    k.outbox.trans h.outbox, k.userList.trans h.userList, h.ctx.trans k.ctx⟩

theorem Emits.quiet {a : List Call} {x y z : Proc} (h : Emits a x y) (k : Emits [] y z) :
    Emits a x z := by
  simpa using h.trans k

theorem Emits.issue (x : Proc) (c : Call) : Emits [c] x (x.issue c) :=
  ⟨rfl, rfl, rfl, rfl, CtxLe.refl x⟩

theorem Emits.setConn (x : Proc) (s : Str) (f : Conn → Conn)
    (hf : ∀ c : Conn, c.Le (f c)) :
    Emits [] x (x.setConn s f) :=
  ⟨by simp [Proc.setConn], rfl, rfl, rfl, CtxLe.setConn x s f hf⟩

theorem Emits.wsSend (x y : Proc) (s : Str) (frame : Frame) (h : x.wsSend s frame = some y) :
    Emits [] x y := by
  unfold Proc.wsSend at h
  split at h
  · cases h
    exact Emits.setConn x s _ fun c => ⟨Or.inl rfl, id, rfl⟩
  · cases h

theorem Emits.wsClose (x : Proc) (s : Str) : Emits [] x (x.wsClose s) := by
  apply Emits.setConn
  intro c
  by_cases hc : c.ws = .opened
  · exact ⟨Or.inr ⟨hc, by simp [hc]⟩, by simp [hc], by simp [hc]⟩
  · exact ⟨Or.inl (by simp [hc]), by simp [hc], by simp [hc]⟩

theorem Emits.settle (x : Proc) (s : Str) : Emits [] x (x.settle s) :=
  Emits.setConn x s _ fun _ => ⟨Or.inl rfl, fun _ => rfl, rfl⟩

theorem Emits.sendRespond (x : Proc) (h : Handler) (isKick : Bool) :
    Emits [] x (x.sendRespond h isKick) := by
  unfold Proc.sendRespond
  cases hs : x.wsSend h.socketId (.respond h.resData) with
  | none => exact Emits.refl x
  | some y =>
    have hy := Emits.wsSend x y _ _ hs
    cases isKick with
    | false => exact hy.quiet (Emits.settle y _)
    | true => exact (hy.quiet (Emits.wsClose y _)).quiet (Emits.settle _ _)

theorem Emits.roomResult (x : Proc) (h : Handler) (data : RespData) (err : Option Str) :
    Emits [] x (x.roomResult h data err) := by
  cases err with
  | none => exact Emits.sendRespond x _ false
  | some e => exact Emits.sendRespond x _ false

theorem Emits.loginRespond (x : Proc) (s : Str) (n : ℕ) : Emits [] x (x.loginRespond s n) := by
  unfold Proc.loginRespond
  cases x.getUserWithSocket s with
  | none => exact Emits.sendRespond x _ false
  | some user =>
    have hset := Emits.setConn x s (fun c => { c with userId := some user.userId })
      fun _ => ⟨Or.inl rfl, id, rfl⟩
    exact hset.quiet (Emits.sendRespond _ _ false)

theorem Emits.kickOld (x : Proc) (userList : List User) : Emits [] x (x.kickOld userList) := by
  induction userList generalizing x with
  | nil => exact Emits.refl x
  | cons user rest ih =>
    simp only [Proc.kickOld, List.foldl_cons]
    by_cases hw : user.websocket = true
    · simp only [hw, if_true]
      exact (Emits.wsClose x user.socketId).quiet (ih _)
    · simp only [hw]
      exact ih x

/-- The fan-out calls of one notice. -/
def fanOut (notice : Notice) (users : List Str) : List Call :=
  users.map fun u => .lookupKeys u (.notice notice .nobody)

theorem Emits.notifyAll (x : Proc) (notice : Notice) (members : List Str) :
    Emits (fanOut notice members) x (x.notifyAll notice members) := by
  induction members generalizing x with
  | nil => exact Emits.refl x
  | cons m rest ih => exact (Emits.issue x _).trans (ih _)

theorem Emits.notifyOthers (x : Proc) (user : User) (notice : Notice) (members : List Str) :
    Emits (fanOut notice (members.filter (· ≠ user.userId))) x
      (x.notifyOthers user notice members) := by
  induction members generalizing x with
  | nil => exact Emits.refl x
  | cons m rest ih =>
    simp only [Proc.notifyOthers, List.foldl_cons]
    by_cases hm : m = user.userId
    · simp only [hm, ne_eq, not_true, if_false, decide_false, List.filter_cons, Bool.false_eq_true]
      exact ih x
    · simp only [ne_eq, hm, not_false_eq_true, if_true, decide_true, List.filter_cons]
      exact (Emits.issue x _).trans (ih _)

theorem Emits.sendMsgs (x : Proc) (notice : Notice) (userList : List User) :
    Emits (fanOut notice (userList.map User.userId)) x
      (userList.foldl (fun y des => y.senderSend des.userId notice) x) := by
  induction userList generalizing x with
  | nil => exact Emits.refl x
  | cons des rest ih => exact (Emits.issue x _).trans (ih _)

end NodeServer

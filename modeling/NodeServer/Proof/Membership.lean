import NodeServer.Proof.RoomClose

/-! # Keeping a membership

Member sets are keyed by the user, joins and leaves belong to connections. A
leave that another connection of the same user has started removes the user
whenever its `SREM` runs, whoever has joined in between. -/

namespace NodeServer

open DBModelKeys

/- A leave of `u` from the room that Redis has still to execute. -/
def Proc.LeavePending (x : Proc) (u room : Str) : Prop :=
  (∃ user roomId hd, .delRoomUserMembers (some user) roomId hd ∈ x.calls ∧ user.userId = u ∧
    roomId.text = room) ∨
  (∃ user roomId hd, .delRoomUserRem user roomId hd ∈ x.sent ∧ user.userId = u ∧ roomId.text = room)

/- The `SADD` of a join has run and its callback has not. -/
def Proc.JoinAdded (x : Proc) (u room s : Str) : Prop :=
  ∃ user roomId hd r, (.addRoomUserAdd user roomId hd, r) ∈ x.answered ∧ (∀ err, r ≠ .error err) ∧
    user.userId = u ∧ roomId.text = room ∧ hd.socketId = s

def LoggedInAs (w : World) (p : Pid) (s u : Str) : Prop :=
  ∃ user, (w.procs p).userList.get s = some user ∧ user.userId = u

/- The event makes `disconnect` run on a connection. -/
def Shuts (w : World) (e : Event) (q : Pid) (t : Str) : Prop :=
  e = .wsClose q t ∨ e = .wsError q t ∨
    ∃ req now, e = .message q t req now ∧ getRouterByName req.route = none ∧
      (w.procs q).isSettled t = false

/- The event starts a leave of `u` from the room on a connection: a `RoomOut`
that names it, or `disconnect` with the room noted. -/
def LeaveStarts (w : World) (e : Event) (q : Pid) (t u room : Str) : Prop :=
  LoggedInAs w q t u ∧ ((w.procs q).ctxRoomId t).isNull = false ∧
    ((∃ req now, e = .message q t req now ∧ getRouterByName req.route = some (.handler .roomOut) ∧
      req.roomId.text = room) ∨
    (Shuts w e q t ∧ ((w.procs q).ctxRoomId t).text = room))

section

variable {w v : World} {e : Event} {p : Pid}

theorem Executed.leave_back {c : Call} {r : Store.Reply} (h : Executed w v e p c r) {q : Pid}
    {u room : Str} (hl : (v.procs q).LeavePending u room) : (w.procs q).LeavePending u room := by
  rcases hl with ⟨user, roomId, hd, hm, hu, ht⟩ | ⟨user, roomId, hd, hm, hu, ht⟩
  · rw [h.calls q] at hm
    exact Or.inl ⟨user, roomId, hd, hm, hu, ht⟩
  · exact Or.inr ⟨user, roomId, hd, h.sent_back hm, hu, ht⟩

variable {i : Input} {x : Proc}

theorem Handled.shuts (h : Handled w v e p i x) {t : Str} (hd : Disconnects i x t) :
    Shuts w e p t := by
  have ha := h.arrives
  rcases hd with rfl | rfl | ⟨req, now, rfl, hroute, hset⟩
  · exact Or.inl ha.1
  · exact Or.inr (Or.inl ha.1)
  · refine Or.inr (Or.inr ⟨req, now, ha.1, hroute, ?_⟩)
    rw [← hset, Proc.isSettled, Proc.isSettled, h.conns]

theorem Handled.disconnects (h : Handled w v e p i x) {t : Str} (hs : Shuts w e p t) :
    Disconnects i x t := by
  have hin := h.input
  rcases hs with rfl | rfl | ⟨req, now, rfl, hroute, hset⟩
  · exact Or.inl (inputOf_wsClose hin).2
  · exact Or.inr (Or.inl (inputOf_wsError hin).2)
  · refine Or.inr (Or.inr ⟨req, now, (inputOf_message hin).2, hroute, ?_⟩)
    rw [← hset, Proc.isSettled, Proc.isSettled, h.conns]

theorem Handled.ctx_eq (h : Handled w v e p i x) (t : Str) :
    x.ctxRoomId t = (w.procs p).ctxRoomId t := by
  simp only [Proc.ctxRoomId, h.conns]

theorem Handled.leave_back (h : Handled w v e p i x) (hw : WF w) {q : Pid} {u room : Str}
    (hl : (v.procs q).LeavePending u room) :
    (w.procs q).LeavePending u room ∨ ∃ t, q = p ∧ LeaveStarts w e p t u room := by
  rcases hl with ⟨user, roomId, hd, hm, hu, ht⟩ | ⟨user, roomId, hd, hm, hu, ht⟩
  · rcases h.call_cases hw q _ hm with hm | ⟨rfl, ho⟩
    · exact Or.inl (Or.inl ⟨user, roomId, hd, hm, hu, ht⟩)
    · generalize hc : Call.delRoomUserMembers (some user) roomId hd = c at ho
      cases ho with
      | roomOut s req now hd' asks hs inRoom =>
        simp only [Call.delRoomUserMembers.injEq] at hc
        obtain ⟨huser, rfl, _⟩ := hc
        have ha := h.arrives
        rw [asks.1] at ha
        refine Or.inr ⟨s, rfl, ⟨user, ?_, hu⟩, by rw [← h.ctx_eq]; exact inRoom,
          Or.inl ⟨req, now, ha.1, asks.2, ht⟩⟩
        rw [← h.userList, ← huser]
      | leave s user' disconnects logged inRoom =>
        simp only [Call.delRoomUserMembers.injEq, Option.some.injEq] at hc
        obtain ⟨rfl, rfl, _⟩ := hc
        rw [h.userList] at logged
        rw [h.ctx_eq] at inRoom ht
        exact Or.inr ⟨s, rfl, ⟨user, logged, hu⟩, inRoom, Or.inr ⟨h.shuts disconnects, ht⟩⟩
      | _ => cases hc
  · rcases h.sent_cases hw q _ hm with hm | ⟨rfl, ho⟩
    · exact Or.inl (Or.inr ⟨user, roomId, hd, hm, hu, ht⟩)
    · cases ho with
      | delRoomUserRem _ _ _ r replied =>
        have hm := List.mem_map_of_mem (f := Prod.fst) (h.reply_mem _ _ replied)
        exact Or.inl (Or.inl ⟨user, roomId, hd, List.mem_append_left _ hm, hu, ht⟩)

end

/-! ### The room requests of a connection -/

def Call.roomReqOn (s : Str) : Call → Bool
  | .addRoomUserKeys _ _ hd | .addRoomUserMembers _ _ hd | .addRoomUserAdd _ _ hd => hd.socketId = s
  | .delRoomUserMembers _ _ (some hd) | .delRoomUserRem _ _ (some hd) => hd.socketId = s
  | _ => false

def Proc.roomReqs (x : Proc) (s : Str) : List Call := x.calls.filter (Call.roomReqOn s)

/- `RoomIn` or `RoomOut`. -/
def Request.isRoomReq (req : Request) : Prop :=
  getRouterByName req.route = some (.handler .roomIn) ∨
  getRouterByName req.route = some (.handler .roomOut)

theorem roomReqOn_chained (s : Str) (c : Call) (h : c.roomReqOn s = true) : c.chained = true := by
  unfold Call.chained
  split
  · cases h
  · cases h
  · rfl

theorem Origin.roomReq {p : Pid} {i : Input} {x : Proc} {c : Call} {s : Str} (ho : Origin p i x c)
    (hc : c.roomReqOn s = true) :
    (∃ c₀ r, i = .reply c₀ r ∧ c₀.roomReqOn s = true) ∨
      ∃ req now, i = .message s req now ∧ req.isRoomReq := by
  cases ho with
  | addRoomUserKeys t req now hd asks hs =>
    have ht : hd.socketId = s := of_decide_eq_true hc
    rw [← ht, hs]
    exact Or.inr ⟨req, now, asks.1, Or.inl asks.2⟩
  | addRoomUserMembers user roomId hd k ks replied => exact Or.inl ⟨_, _, replied, hc⟩
  | addRoomUserAdd user roomId hd r replied => exact Or.inl ⟨_, _, replied, hc⟩
  | roomOut t req now hd asks hs inRoom =>
    have ht : hd.socketId = s := of_decide_eq_true hc
    rw [← ht, hs]
    exact Or.inr ⟨req, now, asks.1, Or.inr asks.2⟩
  | delRoomUserRem user roomId hd r replied =>
    refine Or.inl ⟨_, _, replied, ?_⟩
    cases hd with
    | none => cases hc
    | some hd => exact hc
  | _ => cases hc

theorem Origin.added_last {p : Pid} {i : Input} {x : Proc} {c : Call} {s : Str} {user : User}
    {roomId : JsVal} {hd : Handler} {r : Store.Reply}
    (hi : i = .reply (.addRoomUserAdd user roomId hd) r) (ho : Origin p i x c) :
    c.roomReqOn s = false := by
  cases ho with
  | addRoomUserKeys t req now hd' asks _ => cases hi.symm.trans asks.1
  | addRoomUserMembers _ _ _ k ks replied => cases hi.symm.trans replied
  | addRoomUserAdd _ _ _ r' replied => cases hi.symm.trans replied
  | roomOut t req now hd' asks _ _ => cases hi.symm.trans asks.1
  | delRoomUserRem _ _ _ r' replied => cases hi.symm.trans replied
  | _ => rfl

theorem NotesRoom.req {i : Input} {s : Str} {roomId : JsVal} (h : NotesRoom i s roomId) :
    ∃ c r, i = .reply c r ∧ c.roomReqOn s = true := by
  rcases h with ⟨user, hd, r, hi, _, hs⟩ | ⟨user, room, hd, r, hi, _, hs, _⟩
  · exact ⟨_, r, hi, decide_eq_true hs⟩
  · exact ⟨_, r, hi, decide_eq_true hs⟩

/-- `ctx.roomId` changes with the callback of a room request only. -/
theorem Handled.ctx_cases {w v : World} {e : Event} {p : Pid} {i : Input} {x : Proc}
    (h : Handled w v e p i x) (hw : WF w) (s : Str) :
    (v.procs p).ctxRoomId s = (w.procs p).ctxRoomId s ∨
      NotesRoom i s ((v.procs p).ctxRoomId s) := by
  obtain ⟨news, outs, heff⟩ := h.effect hw
  have hstep := heff.conns s
  rw [h.conns] at hstep
  unfold Proc.ctxRoomId
  cases hc : (w.procs p).conns.get s with
  | none =>
    rw [hc] at hstep
    cases hd : (v.procs p).conns.get s with
    | none => exact Or.inl rfl
    | some d =>
      rw [hd] at hstep
      obtain ⟨now, _, rfl⟩ := hstep
      exact Or.inl rfl
  | some c =>
    rw [hc] at hstep
    cases hd : (v.procs p).conns.get s with
    | none =>
      rw [hd] at hstep
      exact hstep.elim
    | some d =>
      rw [hd] at hstep
      rcases hstep.2.2 with hsame | hnote
      · exact Or.inl (by simp [hsame])
      · exact Or.inr hnote

theorem Handled.ctx_other {w v : World} {e : Event} {p q : Pid} {i : Input} {x : Proc} {s : Str}
    (h : Handled w v e q i x) (hp : p ≠ q) :
    (v.procs p).ctxRoomId s = (w.procs p).ctxRoomId s := by
  rw [Proc.ctxRoomId, (h.other_conns p hp).1, ← Proc.ctxRoomId]

theorem Handled.reply_req {w v : World} {e : Event} {p : Pid} {i : Input} {x : Proc} {s : Str}
    (h : Handled w v e p i x) {c : Call} {r : Store.Reply} (hi : i = .reply c r)
    (hc : c.roomReqOn s = true) : c ∈ (w.procs p).roomReqs s := by
  have hm := List.mem_map_of_mem (f := Prod.fst) (h.reply_mem c r hi)
  exact List.mem_filter.mpr ⟨List.mem_append_left _ hm, hc⟩

/-! ### The condition -/

/- For one connection, user and room: its room requests do not overlap, its
`SADD` runs while no leave of the user is pending, no other connection starts
such a leave while this one is in the room, and the room is not closed between
the `SADD` and its callback. -/
structure JoinKept (p : Pid) (s u room : Str) (w : World) (e : Event) : Prop where
  request : ∀ req now, e = .message p s req now → req.isRoomReq → (w.procs p).roomReqs s = []
  add : ∀ order user roomId hd, e = .exec p (.done order) →
    (w.procs p).sent.head? = some (.addRoomUserAdd user roomId hd) → hd.socketId = s →
    user.userId = u → roomId.text = room → ∀ q, ¬ (w.procs q).LeavePending u room
  leave : ∀ q t, LeaveStarts w e q t u room → (q, t) ≠ (p, s) → (w.procs p).ws s = some .opened →
    ¬ (w.procs p).JoinAdded u room s ∧ ((w.procs p).ctxRoomId s).text ≠ room
  close : ∀ q order roomId hd, e = .exec q (.done order) →
    (w.procs q).sent.head? = some (.delRoomExec roomId hd) → roomId.text = room →
    ¬ (w.procs p).JoinAdded u room s

/- While a join waits for its callback. -/
structure JoinHeld (p : Pid) (s u room : Str) (w : World) : Prop where
  one : ((w.procs p).roomReqs s).length ≤ 1
  held : (w.procs p).ws s = some .opened → (w.procs p).JoinAdded u room s →
    u ∈ members w.db room ∧ ∀ q, ¬ (w.procs q).LeavePending u room

/- While the connection is in the room. -/
structure InRoom (p : Pid) (s u room : Str) (w : World) : Prop where
  own : w.own p s
  none : (w.procs p).roomReqs s = []
  noted : ((w.procs p).ctxRoomId s).text = room
  held : (w.procs p).ws s = some .opened →
    u ∈ members w.db room ∧ ∀ q, ¬ (w.procs q).LeavePending u room

theorem Executed.roomReqs {w v : World} {e : Event} {q : Pid} {c : Call} {r : Store.Reply}
    (h : Executed w v e q c r) (p : Pid) (s : Str) :
    (v.procs p).roomReqs s = (w.procs p).roomReqs s := by
  rw [Proc.roomReqs, h.calls p, ← Proc.roomReqs]

theorem Executed.ctx {w v : World} {e : Event} {q : Pid} {c : Call} {r : Store.Reply}
    (h : Executed w v e q c r) (p : Pid) (s : Str) :
    (v.procs p).ctxRoomId s = (w.procs p).ctxRoomId s := by
  unfold Proc.ctxRoomId
  by_cases hp : p = q
  · rw [hp, h.conns]
  · rw [h.others p hp]

section

variable {w v : World} {e : Event} {q : Pid} {p : Pid} {s u room : Str}

theorem Executed.member_stays {c : Call} {r : Store.Reply} (hw : WF w) (h : Executed w v e q c r)
    (hm : u ∈ members w.db room) (hleave : ¬ (w.procs q).LeavePending u room)
    (hclose : ∀ order roomId hd, e = .exec q (.done order) → c = .delRoomExec roomId hd →
      roomId.text ≠ room) : u ∈ members v.db room := by
  rcases h.member_cases hw room u with hsame | ⟨_, _, _, _, _, _, _, _, hin⟩ |
    ⟨user, roomId, hd, rfl, ht, hu, _⟩ | ⟨roomId, hd, order, hc, ht, he, _⟩
  · exact hsame.mpr hm
  · exact hin
  · exact absurd (Or.inr ⟨user, roomId, hd, h.mem_sent, hu, ht⟩) hleave
  · exact absurd ht (hclose order roomId hd he hc)

theorem Executed.added {user : User} {roomId : JsVal} {hd : Handler} {r : Store.Reply} (hw : WF w)
    (h : Executed w v e q (.addRoomUserAdd user roomId hd) r) (hr : ∀ err, r ≠ .error err) :
    (∃ order, e = .exec q (.done order)) ∧ user.userId ∈ members v.db roomId.text := by
  rcases h.done_or_failed with ⟨order, he, hdb, _⟩ | ⟨_, err, herr⟩
  · refine ⟨⟨order, he⟩, ?_⟩
    rw [hdb]
    exact (Store.membersOf_sadd _ _ _ (hw.member_type _) _).mpr (Or.inl rfl)
  · exact absurd herr (hr err)

theorem JoinHeld.executed {c : Call} {r : Store.Reply} (hw : WF w) (hj : JoinHeld p s u room w)
    (hcond : JoinKept p s u room w e) (h : Executed w v e q c r) : JoinHeld p s u room v := by
  refine ⟨by rw [h.roomReqs]; exact hj.one, ?_⟩
  intro hopen hadd
  rw [h.ws] at hopen
  obtain ⟨user, roomId, hd, r', hm, hr, hu, ht, hs⟩ := hadd
  rcases h.mem_answered p _ _ hm with hold | ⟨rfl, rfl, rfl⟩
  · have hadd : (w.procs p).JoinAdded u room s := ⟨user, roomId, hd, r', hold, hr, hu, ht, hs⟩
    obtain ⟨hin, hnone⟩ := hj.held hopen hadd
    refine ⟨h.member_stays hw hin (hnone q) ?_, fun t hl => hnone t (h.leave_back hl)⟩
    intro order roomId' hd' he hc ht'
    exact hcond.close q order roomId' hd' he (hc ▸ h.sent_head) ht' hadd
  · obtain ⟨⟨order, he⟩, hin⟩ := h.added hw hr
    rw [hu, ht] at hin
    refine ⟨hin, ?_⟩
    intro t hl
    exact hcond.add order user roomId hd he h.sent_head hs hu ht t (h.leave_back hl)

theorem InRoom.executed {c : Call} {r : Store.Reply} (hw : WF w) (hi : InRoom p s u room w)
    (hclose : ∀ order roomId hd, e = .exec q (.done order) →
      (w.procs q).sent.head? = some (.delRoomExec roomId hd) → roomId.text ≠ room)
    (h : Executed w v e q c r) : InRoom p s u room v := by
  refine ⟨(h.own p s).mpr hi.own, by rw [h.roomReqs]; exact hi.none, by rw [h.ctx]; exact hi.noted, ?_⟩
  intro hopen
  rw [h.ws] at hopen
  obtain ⟨hin, hnone⟩ := hi.held hopen
  refine ⟨h.member_stays hw hin (hnone q) ?_, fun t hl => hnone t (h.leave_back hl)⟩
  intro order roomId hd he hc
  exact hclose order roomId hd he (hc ▸ h.sent_head)

variable {i : Input} {x : Proc}

theorem Handled.roomReqs_other (h : Handled w v e q i x) (hp : p ≠ q) :
    (v.procs p).roomReqs s = (w.procs p).roomReqs s := by
  obtain ⟨_, _, hsent, hans⟩ := h.other_conns p hp
  simp only [Proc.roomReqs, Proc.calls, hsent, hans]

theorem Handled.roomReqs_back (h : Handled w v e p i x) (hw : WF w) (c : Call)
    (hc : c ∈ (v.procs p).roomReqs s) :
    (w.procs p).roomReqs s ≠ [] ∨ ∃ req now, e = .message p s req now ∧ req.isRoomReq := by
  obtain ⟨hcall, hon⟩ := List.mem_filter.mp hc
  rcases h.call_cases hw p c hcall with hold | ⟨_, ho⟩
  · exact Or.inl (List.ne_nil_of_mem (List.mem_filter.mpr ⟨hold, hon⟩))
  · rcases ho.roomReq hon with ⟨c₀, r, hi, hc₀⟩ | ⟨req, now, hi, hreq⟩
    · exact Or.inl (List.ne_nil_of_mem (h.reply_req hi hc₀))
    · have ha := h.arrives
      rw [hi] at ha
      exact Or.inr ⟨req, now, ha.1, hreq⟩

theorem JoinAdded.req {x : Proc} (h : x.JoinAdded u room s) : x.roomReqs s ≠ [] := by
  obtain ⟨user, roomId, hd, r, hm, _, _, _, hs⟩ := h
  refine List.ne_nil_of_mem (List.mem_filter.mpr
    ⟨List.mem_append_left _ (List.mem_map_of_mem hm), ?_⟩)
  exact decide_eq_true hs

theorem Handled.leave_open (h : Handled w v e q i x) (hw : WF w) (hl : AllLive w)
    (hopen : (w.procs p).ws s = some .opened) (hstays : (v.procs p).ws s = some .opened)
    (hq : q = p) (hs : LeaveStarts w e q s u room) :
    ∃ req now, e = .message p s req now ∧ req.isRoomReq := by
  subst hq
  obtain ⟨⟨user, huser, _⟩, _, ⟨req, now, he, hroute, _⟩ | ⟨hshut, _⟩⟩ := hs
  · exact ⟨req, now, he, Or.inr hroute⟩
  · obtain ⟨hsock, _⟩ := hw.users q s user huser
    exact absurd (Or.inl ⟨s, h.disconnects hshut, by rw [h.userList]; exact huser⟩)
      (h.not_loggedOut hw (hl q s hopen) hopen hstays user hsock)

theorem JoinHeld.handled (hw : WF w) (hl : AllLive w) (hj : JoinHeld p s u room w)
    (hcond : JoinKept p s u room w e) (h : Handled w v e q i x) : JoinHeld p s u room v := by
  refine ⟨?_, ?_⟩
  · by_cases hp : p = q
    · subst hp
      refine h.one_chain hw _ (roomReqOn_chained s) hj.one ?_
      intro c ho hc
      rcases ho.roomReq hc with hcont | ⟨req, now, hi, hreq⟩
      · exact Or.inl hcont
      · have ha := h.arrives
        rw [hi] at ha
        exact Or.inr (hcond.request req now ha.1 hreq)
    · rw [h.roomReqs_other hp]
      exact hj.one
  · intro hopen hadd
    have haddw : (w.procs p).JoinAdded u room s := by
      obtain ⟨user, roomId, hd, r, hm, hrest⟩ := hadd
      exact ⟨user, roomId, hd, r, h.answered_sub hw p _ hm, hrest⟩
    have hopenw : (w.procs p).ws s = some .opened := by
      rcases h.open_back hw p s hopen with ho | ⟨_, now, hi⟩
      · exact ho
      · -- a new socket id belongs to no call
        obtain ⟨user, roomId, hd, r, hm, _, _, _, hs⟩ := haddw
        have hok := hw.calls p _ (List.mem_append_left _ (List.mem_map_of_mem hm))
        have hown : w.own p user.socketId := hok.1.1.1
        rw [← hok.2, hs] at hown
        exact absurd (hw.ids p s hown) (h.fresh s now hi).1
    obtain ⟨hin, hnone⟩ := hj.held hopenw haddw
    refine ⟨by rw [h.db]; exact hin, ?_⟩
    intro t hleave
    rcases h.leave_back hw hleave with hold | ⟨t', rfl, hstart⟩
    · exact hnone t hold
    · by_cases heq : (t, t') = (p, s)
      · cases heq
        obtain ⟨req, now, he, hreq⟩ := h.leave_open hw hl hopenw hopen rfl hstart
        exact JoinAdded.req haddw (hcond.request req now he hreq)
      · exact (hcond.leave t t' hstart heq hopenw).1 haddw

theorem InRoom.handled (hw : WF w) (hl : AllLive w) (hi : InRoom p s u room w)
    (hcond : JoinKept p s u room w e)
    (hreq : ∀ req now, e = .message p s req now → ¬ req.isRoomReq)
    (h : Handled w v e q i x) : InRoom p s u room v := by
  have hempty : (v.procs p).roomReqs s = [] := by
    by_cases hp : p = q
    · subst hp
      by_contra hne
      obtain ⟨c, hc⟩ := List.exists_mem_of_ne_nil _ hne
      rcases h.roomReqs_back hw c hc with hold | ⟨req, now, he, hr⟩
      · exact hold hi.none
      · exact hreq req now he hr
    · rw [h.roomReqs_other hp]
      exact hi.none
  refine ⟨h.own_mono hw p s hi.own, hempty, ?_, ?_⟩
  · by_cases hp : p = q
    · subst hp
      rcases h.ctx_cases hw s with hsame | hnote
      · rw [hsame]
        exact hi.noted
      · -- a request would have to be pending
        obtain ⟨c, r, hr, hc⟩ := hnote.req
        exact absurd hi.none (List.ne_nil_of_mem (h.reply_req hr hc))
    · rw [h.ctx_other hp]
      exact hi.noted
  · intro hopen
    have hopenw : (w.procs p).ws s = some .opened := by
      rcases h.open_back hw p s hopen with ho | ⟨_, now, hc⟩
      · exact ho
      · exact absurd (hw.ids p s hi.own) (h.fresh s now hc).1
    obtain ⟨hin, hnone⟩ := hi.held hopenw
    refine ⟨by rw [h.db]; exact hin, ?_⟩
    intro t hleave
    rcases h.leave_back hw hleave with hold | ⟨t', rfl, hstart⟩
    · exact hnone t hold
    · by_cases heq : (t, t') = (p, s)
      · cases heq
        obtain ⟨req, now, he, hr⟩ := h.leave_open hw hl hopenw hopen rfl hstart
        exact hreq req now he hr
      · exact (hcond.leave t t' hstart heq hopenw).2 hi.noted

theorem noteRoom_ctx (x : Proc) (hd : Handler) (roomId : JsVal) (data : RespData)
    (hown : x.conns.get hd.socketId ≠ none) :
    ((x.setConn hd.socketId fun c => { c with roomId := roomId }).roomResult hd data none).ctxRoomId
      hd.socketId = roomId := by
  obtain ⟨c, hc⟩ := Option.ne_none_iff_exists'.mp hown
  have hnoted : (x.setConn hd.socketId fun c => { c with roomId := roomId }).conns.get hd.socketId =
      some { c with roomId := roomId } := by
    simp only [Proc.setConn, Table.get_modify, if_true, hc, Option.map_some]
  generalize x.setConn hd.socketId (fun c => { c with roomId := roomId }) = y at hnoted ⊢
  have hctx := (Emits.roomResult y hd data none).ctx hd.socketId
  rw [hnoted] at hctx
  unfold Proc.ctxRoomId
  cases hd' : (y.roomResult hd data none).conns.get hd.socketId with
  | none =>
    rw [hd'] at hctx
    cases hctx
  | some d =>
    rw [hd'] at hctx
    have hle : Conn.Le { c with roomId := roomId } d := hctx
    simp [hle.roomId]

theorem Handled.joined_ctx {user : User} {roomId : JsVal} {hd : Handler} {r : Store.Reply}
    (h : Handled w v e p i x) (hi : i = .reply (.addRoomUserAdd user roomId hd) r)
    (hr : ∀ err, r ≠ .error err) (hown : w.own p hd.socketId) :
    (v.procs p).ctxRoomId hd.socketId = roomId := by
  have hafter : v.procs p = x.roomInResult hd roomId none := by
    rw [h.after, hi]
    cases r with
    | error err => exact absurd rfl (hr err)
    | _ => rfl
  rw [hafter]
  exact noteRoom_ctx x hd roomId (.room roomId) (by rw [h.conns]; exact hown)

theorem Handled.left_ctx {user : User} {roomId : JsVal} {hd : Handler} {r : Store.Reply}
    (h : Handled w v e p i x) (hi : i = .reply (.delRoomUserRem user roomId (some hd)) r)
    (hr : ∀ err, r ≠ .error err) (hown : w.own p hd.socketId) :
    (v.procs p).ctxRoomId hd.socketId = .undefined := by
  have hafter : v.procs p = x.roomOutResult (some hd) roomId none := by
    rw [h.after, hi]
    cases r with
    | error err => exact absurd rfl (hr err)
    | _ => rfl
  rw [hafter]
  exact noteRoom_ctx x hd .undefined (.room roomId) (by rw [h.conns]; exact hown)

/- The callback of a successful `RoomIn` of `u` for the room runs on the open
connection. -/
structure JoinAnswered (p : Pid) (s u room : Str) (w v : World) : Prop where
  reply : ∃ user roomId hd r rest,
    (w.procs p).answered = (.addRoomUserAdd user roomId hd, r) :: rest ∧ (∀ err, r ≠ .error err) ∧
    user.userId = u ∧ roomId.text = room ∧ hd.socketId = s
  opened : (w.procs p).ws s = some .opened
  step : NodeServer.step w (.reply p) = some v

theorem JoinHeld.answered (hw : WF w) (hj : JoinHeld p s u room w)
    (ha : JoinAnswered p s u room w v) : InRoom p s u room v := by
  obtain ⟨user, roomId, hd, r, rest, hans, hr, hu, ht, hs⟩ := ha.reply
  have hadd : (w.procs p).JoinAdded u room s :=
    ⟨user, roomId, hd, r, by rw [hans]; exact List.mem_cons_self .., hr, hu, ht, hs⟩
  obtain ⟨hin, hnone⟩ := hj.held ha.opened hadd
  have hv : v = (takeOff w (.reply p)).setProc p
      (react p (.reply (.addRoomUserAdd user roomId hd) r) ((takeOff w (.reply p)).procs p)) := by
    have hstep := ha.step
    simp only [NodeServer.step, inputOf, hans, Option.map_some, Option.some.injEq] at hstep
    exact hstep.symm
  have h := handled_reply w v p _ r rest hans hv
  refine ⟨h.own_mono hw p s (own_of_ws ha.opened), ?_, ?_, ?_⟩
  · -- the join was the only request of the connection
    exact h.last_chain hw _ hj.one rfl (decide_eq_true hs)
      fun c ho => Origin.added_last rfl ho
  · rw [← hs, h.joined_ctx rfl hr (by rw [hs]; exact own_of_ws ha.opened), ht]
  · intro _
    refine ⟨by rw [h.db]; exact hin, ?_⟩
    intro t hleave
    rcases h.leave_back hw hleave with hold | ⟨t', _, _, _, ⟨_, _, he, _⟩ | ⟨hshut, _⟩⟩
    · exact hnone t hold
    · cases he
    · rcases hshut with he | he | ⟨_, _, he, _⟩ <;> cases he

end

/-! ### Runs that keep a membership -/

/- The connection sends no room request and the room is not closed. -/
structure Undisturbed (p : Pid) (s room : Str) (w : World) (e : Event) : Prop where
  request : ∀ req now, e = .message p s req now → ¬ req.isRoomReq
  close : ∀ q order roomId hd, e = .exec q (.done order) →
    (w.procs q).sent.head? = some (.delRoomExec roomId hd) → roomId.text ≠ room

theorem joinHeld_reach {p : Pid} {s u room : Str} {w : World}
    (h : Run.Reach step (JoinKept p s u room) World.initial w) :
    WF w ∧ AllLive w ∧ JoinHeld p s u room w := by
  refine Run.Reach.invariant (fun w => WF w ∧ AllLive w ∧ JoinHeld p s u room w) ?_ ?_ h
  · refine ⟨WF.initial, ?_, Nat.zero_le 1, ?_⟩
    · intro q t ho
      cases ho
    · intro ho
      cases ho
  · intro w e v ⟨hw, hl, hj⟩ hcond hs
    refine ⟨hw.step hs, hl.step hw hs, ?_⟩
    rcases step_cases w v e hs with ⟨q, c, r, hx⟩ | ⟨q, i, x, hx⟩
    · exact hj.executed hw hcond hx
    · exact hj.handled hw hl hcond hx

/-- A successful join lasts while its connection is open. -/
theorem membership_kept (p : Pid) (s u room : Str) (w₁ w₂ w₃ : World)
    (hreach : Run.Reach step (JoinKept p s u room) World.initial w₁)
    (hjoin : JoinAnswered p s u room w₁ w₂)
    (hrest : Run.Reach step (fun w e => JoinKept p s u room w e ∧ Undisturbed p s room w e) w₂ w₃)
    (hopen : (w₃.procs p).ws s = some .opened) : u ∈ members w₃.db room := by
  obtain ⟨hw, hl, hj⟩ := joinHeld_reach hreach
  have hinv := Run.Reach.invariant (fun w => WF w ∧ AllLive w ∧ InRoom p s u room w)
    ⟨hw.step hjoin.step, hl.step hw hjoin.step, hj.answered hw hjoin⟩ ?_ hrest
  · exact (hinv.2.2.held hopen).1
  · intro w e v ⟨hw, hl, hi⟩ ⟨hcond, hun⟩ hs
    refine ⟨hw.step hs, hl.step hw hs, ?_⟩
    rcases step_cases w v e hs with ⟨q, c, r, hx⟩ | ⟨q, i, x, hx⟩
    · exact hi.executed hw (hun.close q) hx
    · exact hi.handled hw hl hcond hun.request hx

/-! ### A join after the old connection has left, and one before -/

def Call.isLeave : Call → Bool
  | .delRoomUserMembers _ _ _ | .delRoomUserRem _ _ _ => true
  | _ => false

theorem Proc.LeavePending.call {x : Proc} {u room : Str} (h : x.LeavePending u room) :
    ∃ c ∈ x.calls, c.isLeave = true := by
  rcases h with ⟨user, roomId, hd, hm, _⟩ | ⟨user, roomId, hd, hm, _⟩
  · exact ⟨_, hm, rfl⟩
  · exact ⟨_, List.mem_append_right _ hm, rfl⟩

/- Neither in the room nor about to be. -/
def outside (p : Pid) (s room : Str) (w : World) : Bool :=
  !(w.procs p).calls.any Call.isJoin && ((w.procs p).ctxRoomId s).text ≠ room

def joinKeptTest (ps : List Pid) (p : Pid) (s room : Str) (w : World) : Event → Bool
  | .message q t _ _ => if (q, t) = (p, s) then ((w.procs p).roomReqs s).isEmpty else outside p s room w
  | .wsClose q t | .wsError q t => (q, t) = (p, s) || outside p s room w
  | .exec q (.done _) =>
    match (w.procs q).sent with
    | .addRoomUserAdd _ _ _ :: _ => ps.all fun t => !(w.procs t).calls.any Call.isLeave
    | .delRoomExec _ _ :: _ => false
    | _ => true
  | _ => true

theorem outside_spec {p : Pid} {s u room : Str} {w : World} (h : outside p s room w = true) :
    ¬ (w.procs p).JoinAdded u room s ∧ ((w.procs p).ctxRoomId s).text ≠ room := by
  simp only [outside, Bool.and_eq_true, Bool.not_eq_true', List.any_eq_false, decide_eq_true_eq] at h
  refine ⟨?_, h.2⟩
  rintro ⟨user, roomId, hd, r, hm, _⟩
  exact h.1 _ (List.mem_append_left _ (List.mem_map_of_mem hm)) rfl

theorem joinKeptTest_sound (ps : List Pid) (p : Pid) (s u room : Str) (w : World) (e : Event)
    (hidle : ∀ q, q ∉ ps → w.procs q = Proc.initial) (h : joinKeptTest ps p s room w e = true) :
    JoinKept p s u room w e := by
  refine ⟨?_, ?_, ?_, ?_⟩
  · intro req now he _
    subst he
    simpa [joinKeptTest] using h
  · intro order user roomId hd he hhead _ _ _ q hl
    subst he
    obtain ⟨c, hc, hleave⟩ := hl.call
    by_cases hq : q ∈ ps
    · obtain ⟨rest, hsent⟩ := List.head?_eq_some_iff.mp hhead
      simp only [joinKeptTest, hsent, List.all_eq_true, Bool.not_eq_true', List.any_eq_false] at h
      exact h q hq c hc hleave
    · rw [hidle q hq] at hc
      cases hc
  · rintro q t ⟨_, _, ⟨req, now, rfl, _⟩ | ⟨rfl | rfl | ⟨req, now, rfl, _⟩, _⟩⟩ hne _
    · simp only [joinKeptTest, hne, if_false] at h
      exact outside_spec h
    · simp only [joinKeptTest, hne, decide_false, Bool.false_or] at h
      exact outside_spec h
    · simp only [joinKeptTest, hne, decide_false, Bool.false_or] at h
      exact outside_spec h
    · simp only [joinKeptTest, hne, if_false] at h
      exact outside_spec h
  · intro q order roomId hd he hhead _
    subst he
    obtain ⟨rest, hsent⟩ := List.head?_eq_some_iff.mp hhead
    simp [joinKeptTest, hsent] at h

def undisturbedTest (w : World) : Event → Bool
  | .message _ _ req _ => getRouterByName req.route = some (.handler .heartbeat)
  | .exec q (.done _) =>
    match (w.procs q).sent with
    | .delRoomExec _ _ :: _ => false
    | _ => true
  | _ => true

theorem undisturbedTest_sound (p : Pid) (s room : Str) (w : World) (e : Event)
    (h : undisturbedTest w e = true) : Undisturbed p s room w e := by
  refine ⟨?_, ?_⟩
  · intro req now he hreq
    subst he
    have hbeat : getRouterByName req.route = some (.handler .heartbeat) := of_decide_eq_true h
    rcases hreq with hreq | hreq
    · rw [hbeat] at hreq
      cases hreq
    · rw [hbeat] at hreq
      cases hreq
  · intro q order roomId hd he hhead _
    subst he
    obtain ⟨rest, hsent⟩ := List.head?_eq_some_iff.mp hhead
    simp [undisturbedTest, hsent] at h

/- The next callback of the process is that of such a join. -/
def answersJoin (w : World) (p : Pid) (s u room : Str) : Bool :=
  match (w.procs p).answered with
  | (.addRoomUserAdd user roomId hd, .int _) :: _ =>
    user.userId = u && roomId.text = room && hd.socketId = s
  | _ => false

theorem JoinAnswered.ofTest {w v : World} {p : Pid} {s u room : Str}
    (h : answersJoin w p s u room = true) (hopen : (w.procs p).ws s = some .opened)
    (hstep : NodeServer.step w (.reply p) = some v) : JoinAnswered p s u room w v := by
  refine ⟨?_, hopen, hstep⟩
  unfold answersJoin at h
  split at h
  · next user roomId hd n rest hans =>
    simp only [Bool.and_eq_true, decide_eq_true_eq] at h
    obtain ⟨⟨hu, hr⟩, hs⟩ := h
    exact ⟨user, roomId, hd, _, rest, hans, nofun, hu, hr, hs⟩
  · cases h

/- B logs in as the same user on process 1 while A is in room 1, and A is kicked. -/
def kickedTrace : List Event :=
  joinedTrace ++ [.connect 1 ['B'] 5, .message 1 (socketIdOf ['B']) (loginRequest ['u']) 6,
    .exec 1 (.done [uniquePattern ['u'] (socketIdOf ['A'])]), .reply 1, .exec 1 (.done []), .reply 1,
    .exec 1 (.done [uniquePattern ['u'] (socketIdOf ['A'])]), .reply 1, .exec 1 (.done []), .reply 1,
    .exec 1 (.done []), .reply 1, .deliver 1 0 0]

/- The close event of A: its logout and its leave. -/
def lateCloseTrace : List Event :=
  [.wsClose 0 (socketIdOf ['A']), .exec 0 (.done []), .exec 0 (.done [['u']]), .reply 0, .reply 0,
    .exec 0 (.done []), .reply 0]

/- B joins room 1, up to the `SADD`. -/
def rejoinTrace (others : List Str) : List Event :=
  [.message 1 (socketIdOf ['B']) (Route.roomIn.request none (.str ['1'])) 7,
    .exec 1 (.done [roomPattern ['1']]), .reply 1, .exec 1 (.done others), .reply 1,
    .exec 1 (.done [])]

def beatTrace : List Event :=
  [.message 1 (socketIdOf ['B']) (Route.heartbeat.request none .undefined) 8]

def joinAfterTrace : List Event := kickedTrace ++ lateCloseTrace ++ rejoinTrace []

theorem membership_kept_after_leave :
    ['u'] ∈ members (Run.ends step (Run.ends step World.initial (joinAfterTrace ++ [.reply 1]))
      beatTrace).db ['1'] := by
  obtain ⟨hstep, hkept, hanswers, hopen, hbeat, hstill⟩ :
      (Run.runs step World.initial (joinAfterTrace ++ [.reply 1])).isSome = true ∧
      Run.meets step (joinKeptTest [0, 1] 1 (socketIdOf ['B']) ['1']) World.initial
        joinAfterTrace = true ∧
      answersJoin (Run.ends step World.initial joinAfterTrace) 1 (socketIdOf ['B']) ['u'] ['1'] =
        true ∧
      ((Run.ends step World.initial joinAfterTrace).procs 1).ws (socketIdOf ['B']) = some .opened ∧
      Run.meets step (fun w e => joinKeptTest [0, 1] 1 (socketIdOf ['B']) ['1'] w e &&
        undisturbedTest w e) (Run.ends step World.initial (joinAfterTrace ++ [.reply 1]))
          beatTrace = true ∧
      ((Run.ends step (Run.ends step World.initial (joinAfterTrace ++ [.reply 1]))
        beatTrace).procs 1).ws (socketIdOf ['B']) = some .opened := by decide +kernel
  exact membership_kept 1 (socketIdOf ['B']) ['u'] ['1'] _ _ _
    (reach_of_test [0, 1] _ (joinKeptTest_sound [0, 1] 1 (socketIdOf ['B']) ['u'] ['1'])
      joinAfterTrace (by decide) hkept)
    (JoinAnswered.ofTest hanswers hopen (Run.step_ends hstep))
    (reach_of_test_from [0, 1]
      (fun w e => joinKeptTest [0, 1] 1 (socketIdOf ['B']) ['1'] w e && undisturbedTest w e)
      (fun w e hidle h => ⟨joinKeptTest_sound _ _ _ _ _ w e hidle (Bool.and_eq_true_iff.mp h).1,
        undisturbedTest_sound _ _ _ w e (Bool.and_eq_true_iff.mp h).2⟩)
      _ beatTrace (untouched_ends [0, 1] _ (by decide) hstep) (by decide) hbeat)
    hstill

def joinBeforeTrace : List Event := kickedTrace ++ rejoinTrace [['u']]

theorem membership_lost :
    ¬ ∀ (p : Pid) (s u room : Str) (w₁ w₂ w₃ : World), Reachable w₁ →
      JoinAnswered p s u room w₁ w₂ → Run.Reach step (Undisturbed p s room) w₂ w₃ →
      (w₃.procs p).ws s = some .opened → LoggedInAs w₃ p s u → u ∈ members w₃.db room := by
  intro hall
  obtain ⟨hjoin, hstep, hlogged, hanswers, hopen, hclose, hstill, hout⟩ :
      (Run.runs step World.initial joinBeforeTrace).isSome = true ∧
      (Run.runs step World.initial (joinBeforeTrace ++ [.reply 1])).isSome = true ∧
      ((Run.ends step (Run.ends step World.initial (joinBeforeTrace ++ [.reply 1]))
        lateCloseTrace).procs 1).userList.get (socketIdOf ['B']) =
          some (createUserWithLogin 1 0 ['u'] (socketIdOf ['B']) (natText 5) (natText 6)) ∧
      answersJoin (Run.ends step World.initial joinBeforeTrace) 1 (socketIdOf ['B']) ['u'] ['1'] =
        true ∧
      ((Run.ends step World.initial joinBeforeTrace).procs 1).ws (socketIdOf ['B']) = some .opened ∧
      Run.meets step undisturbedTest (Run.ends step World.initial (joinBeforeTrace ++ [.reply 1]))
        lateCloseTrace = true ∧
      ((Run.ends step (Run.ends step World.initial (joinBeforeTrace ++ [.reply 1]))
        lateCloseTrace).procs 1).ws (socketIdOf ['B']) = some .opened ∧
      ['u'] ∉ members (Run.ends step (Run.ends step World.initial (joinBeforeTrace ++ [.reply 1]))
        lateCloseTrace).db ['1'] := by decide +kernel
  have hin := hall 1 (socketIdOf ['B']) ['u'] ['1'] _ _ _ (Run.reach_ends joinBeforeTrace hjoin)
    (JoinAnswered.ofTest hanswers hopen (Run.step_ends hstep))
    (reach_of_test_from [0, 1] undisturbedTest (fun w e _ h => undisturbedTest_sound _ _ _ w e h)
      _ lateCloseTrace (untouched_ends [0, 1] _ (by decide) hstep) (by decide) hclose)
    hstill ⟨_, hlogged, rfl⟩
  exact hout hin

end NodeServer

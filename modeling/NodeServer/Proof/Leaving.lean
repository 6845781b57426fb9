import NodeServer.Proof.Membership
import NodeServer.Proof.Agreement

/-! # Leaving the room with the connection

Only `disconnect` takes a user out of the room of its connection, and it needs
both the entry of the user and the room noted in `ctx` at that instant. -/

namespace NodeServer

open DBModelKeys

/-! ### The premises: one join and no leave on the connection -/

def Event.roomInOn (p : Pid) (s : Str) : Event → Bool
  | .message q t req _ =>
    q = p && t = s && getRouterByName req.route = some (.handler .roomIn)
  | _ => false

def roomIns (p : Pid) (s : Str) (tr : List (World × Event)) : ℕ :=
  tr.countP fun a => a.2.roomInOn p s

/- The event is no `RoomOut` on the connection. -/
def Stays (p : Pid) (s : Str) (e : Event) : Prop :=
  ∀ req now, e = .message p s req now → getRouterByName req.route ≠ some (.handler .roomOut)

/- The room requests of the connection are at most one `RoomIn`, and no other
connection joins a room as `u`. -/
structure OneRoomIn (p : Pid) (s u : Str) (tr : List (World × Event)) : Prop where
  once : roomIns p s tr ≤ 1
  stays : ∀ a ∈ tr, Stays p s a.2
  alone : ∀ a ∈ tr, ∀ q order user roomId hd, a.2 = .exec q (.done order) →
    (a.1.procs q).sent.head? = some (.addRoomUserAdd user roomId hd) → user.userId = u →
    q = p ∧ hd.socketId = s

def InNoRoom (w : World) (u : Str) : Prop := ∀ room, u ∉ members w.db room

/- The user of the connection is logged out while its join is not in flight, and
while a room is noted only by `disconnect` and as `u`; and the `SREM` of a leave
of `u` does not fail. -/
structure LeavesOrderly (p : Pid) (s u : Str) (w : World) (e : Event) : Prop where
  logout : ∀ i, inputOf w e = some (p, i) → ∀ user ∈ logouts p i (w.procs p), user.socketId = s →
    (w.procs p).roomReqs s = [] ∧
      (((w.procs p).ctxRoomId s).isNull = false → Shuts w e p s ∧ user.userId = u)
  remove : ∀ q message user roomId hd, e = .exec q (.failed message) →
    (w.procs q).sent.head? = some (.delRoomUserRem user roomId hd) → user.userId ≠ u

/-! ### The room of a join has a name -/

theorem null_room_missing {w : World} (hw : WF w) (roomId : JsVal) (k : Str)
    (hmatch : Glob.stringmatch (roomPattern roomId.text) k = true) (hk : w.db.get k ≠ none) :
    roomId.isNull = false := by
  by_contra hnull
  have hnull : roomId.isNull = true := by simpa using hnull
  have hplain : Glob.plain (roomPattern roomId.text) := by
    cases roomId with
    | undefined => decide
    | null => decide
    | num n => cases hnull
    | str s => cases hnull
  rw [Glob.stringmatch_plain _ _ hplain] at hmatch
  obtain ⟨value, hv⟩ := Option.ne_none_iff_exists'.mp hk
  rw [hmatch] at hv
  obtain ⟨n, hn, _⟩ := entry_room w.own w.db hw.db hv
  exact isNull_not_decimal roomId hnull n hn

/- Joins past their check name a room. -/
structure JoinsNamed (w : World) : Prop where
  found : ∀ q user roomId hd k ks,
    (.addRoomUserKeys user roomId hd, .array (k :: ks)) ∈ (w.procs q).answered →
    roomId.isNull = false
  past : ∀ q user roomId hd, (.addRoomUserMembers user roomId hd ∈ (w.procs q).calls ∨
    .addRoomUserAdd user roomId hd ∈ (w.procs q).calls) → roomId.isNull = false

theorem JoinsNamed.step {w v : World} {e : Event} (hw : WF w) (hn : JoinsNamed w)
    (h : NodeServer.step w e = some v) : JoinsNamed v := by
  rcases step_cases w v e h with ⟨p, c, r, hx⟩ | ⟨p, i, x, hx⟩
  · refine ⟨?_, ?_⟩
    · intro q user roomId hd k ks hm
      rcases hx.mem_answered q _ _ hm with hm | ⟨_, hc, hr⟩
      · exact hn.found q user roomId hd k ks hm
      · obtain ⟨hmatch, hk⟩ := hx.found user roomId hd k ks hc.symm hr.symm
        exact null_room_missing hw roomId k hmatch hk
    · intro q user roomId hd hm
      rw [hx.calls q] at hm
      exact hn.past q user roomId hd hm
  · refine ⟨?_, ?_⟩
    · intro q user roomId hd k ks hm
      exact hn.found q user roomId hd k ks (hx.answered_sub hw q _ hm)
    · intro q user roomId hd hm
      rcases hm with hm | hm
      · rcases hx.call_cases hw q _ hm with hold | ⟨rfl, ho⟩
        · exact hn.past q user roomId hd (Or.inl hold)
        · cases ho with
          | addRoomUserMembers _ _ _ k ks replied =>
            exact hn.found q (some user) roomId hd k ks (hx.reply_mem _ _ replied)
      · rcases hx.call_cases hw q _ hm with hold | ⟨rfl, ho⟩
        · exact hn.past q user roomId hd (Or.inr hold)
        · cases ho with
          | addRoomUserAdd _ _ _ r replied =>
            exact hn.past q user roomId hd (Or.inl (hx.reply_call replied))

/-! ### Leaves run to their end -/

section

variable {w v : World} {e : Event} {p : Pid}

theorem Executed.leave_fwd {c : Call} {r : Store.Reply} (h : Executed w v e p c r) {q : Pid}
    {u room : Str} (hl : (w.procs q).LeavePending u room) :
    (v.procs q).LeavePending u room ∨
      (q = p ∧ ∃ user roomId hd, c = .delRoomUserRem user roomId hd ∧ user.userId = u ∧
        roomId.text = room) := by
  rcases hl with ⟨user, roomId, hd, hm, hu, ht⟩ | ⟨user, roomId, hd, hm, hu, ht⟩
  · rw [← h.calls q] at hm
    exact Or.inl (Or.inl ⟨user, roomId, hd, hm, hu, ht⟩)
  · by_cases hq : q = p
    · subst hq
      rw [h.sent] at hm
      rcases List.mem_cons.mp hm with hc | hm
      · exact Or.inr ⟨rfl, user, roomId, hd, hc.symm, hu, ht⟩
      · exact Or.inl (Or.inr ⟨user, roomId, hd, hm, hu, ht⟩)
    · rw [← h.others q hq] at hm
      exact Or.inl (Or.inr ⟨user, roomId, hd, hm, hu, ht⟩)

theorem Executed.removed {user : User} {roomId : JsVal} {hd : Option Handler} {r : Store.Reply}
    (h : Executed w v e p (.delRoomUserRem user roomId hd) r)
    (hok : ∀ message, e ≠ .exec p (.failed message)) : user.userId ∉ members v.db roomId.text := by
  rcases h.db with ⟨_, _, hdb, _⟩ | ⟨message, he, _⟩
  · rw [hdb]
    intro hm
    exact ((Store.membersOf_srem _ _ _ _).mp hm).1 rfl
  · exact absurd he (hok message)

variable {i : Input} {x : Proc}

/-- The callback of `SMEMBERS` issues the `SREM`, whatever the reply. -/
theorem leave_continues (p : Pid) (x : Proc) (user : User) (roomId : JsVal) (hd : Option Handler)
    (r : Store.Reply) : .delRoomUserRem user roomId hd ∈
      (react p (.reply (.delRoomUserMembers (some user) roomId hd) r) x).sent := by
  cases r with
  | array res => exact List.mem_append_right _ (List.mem_singleton.mpr rfl)
  | _ => exact List.mem_append_right _ (List.mem_singleton.mpr rfl)

theorem Handled.sent_stays (h : Handled w v e p i x) (hw : WF w) {q : Pid} {c : Call}
    (hc : c ∈ (w.procs q).sent) : c ∈ (v.procs q).sent := by
  by_cases hq : q = p
  · subst hq
    obtain ⟨news, outs, heff⟩ := h.effect hw
    rw [heff.sent, h.sent]
    exact List.mem_append_left _ hc
  · rwa [(h.other_conns q hq).2.2.1]

theorem Handled.answered_cases (h : Handled w v e p i x) (hw : WF w) {q : Pid} {c : Call}
    {r : Store.Reply} (hc : (c, r) ∈ (w.procs q).answered) :
    (c, r) ∈ (v.procs q).answered ∨ (q = p ∧ i = .reply c r) := by
  by_cases hq : q = p
  · subst hq
    obtain ⟨news, outs, heff⟩ := h.effect hw
    rw [h.answered] at hc
    rcases List.mem_append.mp hc with hc | hc
    · cases i with
      | reply c' r' =>
        have heq := List.mem_singleton.mp hc
        simp only [Prod.mk.injEq] at heq
        exact Or.inr ⟨rfl, by rw [heq.1, heq.2]⟩
      | _ => cases hc
    · exact Or.inl (by rw [heff.answered]; exact hc)
  · exact Or.inl (by rwa [(h.other_conns q hq).2.2.2])

theorem Handled.leave_fwd (h : Handled w v e p i x) (hw : WF w) {q : Pid} {u room : Str}
    (hl : (w.procs q).LeavePending u room) : (v.procs q).LeavePending u room := by
  rcases hl with ⟨user, roomId, hd, hm, hu, ht⟩ | ⟨user, roomId, hd, hm, hu, ht⟩
  · rcases List.mem_append.mp hm with hm | hm
    · obtain ⟨⟨c, r⟩, hcr, rfl⟩ := List.mem_map.mp hm
      rcases h.answered_cases hw hcr with hstay | ⟨rfl, hi⟩
      · exact Or.inl ⟨user, roomId, hd, List.mem_append_left _ (List.mem_map_of_mem hstay), hu, ht⟩
      · refine Or.inr ⟨user, roomId, hd, ?_, hu, ht⟩
        rw [h.after, hi]
        exact leave_continues q x user roomId hd r
    · exact Or.inl ⟨user, roomId, hd, List.mem_append_right _ (h.sent_stays hw hm), hu, ht⟩
  · exact Or.inr ⟨user, roomId, hd, h.sent_stays hw hm, hu, ht⟩

theorem Handled.leaves (h : Handled w v e p i x) (hw : WF w) {s : Str} {user : User}
    (hd : Disconnects i x s) (hu : (w.procs p).userList.get s = some user)
    (hroom : ((w.procs p).ctxRoomId s).isNull = false) :
    (v.procs p).LeavePending user.userId ((w.procs p).ctxRoomId s).text := by
  refine Or.inl ⟨user, (w.procs p).ctxRoomId s, none, List.mem_append_right _ ?_, rfl, rfl⟩
  have hk := h.keyed hw
  rw [h.after, disconnects_sent p i x s hk hd]
  refine List.mem_append_right _ ?_
  simp only [Proc.leaveCalls, h.userList, hu, h.ctx_eq, hroom, Bool.false_eq_true, if_false]
  exact List.mem_cons_of_mem _ (List.mem_singleton.mpr rfl)

end

/-! ### The invariant -/

/- The user of a join. -/
def Call.joinUser : Call → Option User
  | .addRoomUserKeys user _ _ => user
  | .addRoomUserMembers user _ _ | .addRoomUserAdd user _ _ => some user
  | _ => none

/- The connection has a user entry and is still to have its close event. -/
def Present (w : World) (p : Pid) (s : Str) : Prop :=
  (w.procs p).userList.get s ≠ none ∧ (w.procs p).ws s ≠ some .closed

/- After `n` join requests: whoever is a member has its callback to come, or a
room noted and an entry, or a leave under way. -/
structure Tidy (p : Pid) (s u : Str) (n : ℕ) (w : World) : Prop where
  one : ((w.procs p).roomReqs s).length ≤ 1
  fresh : n = 0 → (w.procs p).roomReqs s = [] ∧ ((w.procs p).ctxRoomId s).isNull = true
  busy : (w.procs p).roomReqs s ≠ [] → ((w.procs p).ctxRoomId s).isNull = true
  joins : ∀ c ∈ (w.procs p).roomReqs s, c.isJoin = true
  entry : ∀ c ∈ (w.procs p).roomReqs s, c.joinUser ≠ none → Present w p s
  inside : ∀ room, u ∈ members w.db room → (w.procs p).JoinAdded u room s ∨
    (((w.procs p).ctxRoomId s).text = room ∧ ((w.procs p).ctxRoomId s).isNull = false ∧
      Present w p s) ∨
    ∃ q, (w.procs q).LeavePending u room

section

variable {w v : World} {e : Event} {p q : Pid} {s u : Str} {n : ℕ}

theorem Executed.present {c : Call} {r : Store.Reply} (h : Executed w v e q c r) :
    Present v p s ↔ Present w p s := by
  rw [Present, Present, h.users p, h.ws p s]

theorem Tidy.executed {c : Call} {r : Store.Reply} (hw : WF w) (ht : Tidy p s u n w)
    (hcond : LeavesOrderly p s u w e)
    (halone : ∀ q order user roomId hd, e = .exec q (.done order) →
      (w.procs q).sent.head? = some (.addRoomUserAdd user roomId hd) → user.userId = u →
      q = p ∧ hd.socketId = s)
    (h : Executed w v e q c r) : Tidy p s u n v := by
  refine ⟨?_, ?_, ?_, ?_, ?_, ?_⟩
  · rw [h.roomReqs]
    exact ht.one
  · rw [h.roomReqs, h.ctx]
    exact ht.fresh
  · rw [h.roomReqs, h.ctx]
    exact ht.busy
  · rw [h.roomReqs]
    exact ht.joins
  · intro c' hc' hu
    rw [h.roomReqs] at hc'
    exact h.present.mpr (ht.entry c' hc' hu)
  · intro room hin
    rw [h.ctx, h.present]
    rcases h.member_cases hw room u with hsame | ⟨user, roomId, hd, order, rfl, hroom, hu, he, _⟩ |
      ⟨_, _, _, _, _, _, hout⟩ | ⟨_, _, _, _, _, _, hempty⟩
    · rcases ht.inside room (hsame.mp hin) with hadd | hnoted | ⟨t, hl⟩
      · refine Or.inl ?_
        obtain ⟨user, roomId, hd, r', hm, hrest⟩ := hadd
        refine ⟨user, roomId, hd, r', ?_, hrest⟩
        by_cases hp : p = q
        · subst hp
          rw [h.answered]
          exact List.mem_append_left _ hm
        · rwa [h.others p hp]
      · exact Or.inr (Or.inl hnoted)
      · rcases h.leave_fwd hl with hl | ⟨rfl, user, roomId, hd, rfl, hu, hroom⟩
        · exact Or.inr (Or.inr ⟨t, hl⟩)
        · -- the leave is executed here
          have hok : ∀ message, e ≠ .exec t (.failed message) := by
            intro message he
            exact hcond.remove t message user roomId hd he h.sent_head hu
          have hgone := h.removed hok
          rw [hu, hroom] at hgone
          exact absurd hin hgone
    · obtain ⟨rfl, hs⟩ := halone q order user roomId hd he h.sent_head hu
      refine Or.inl ⟨user, roomId, hd, r, ?_, h.member_reply hw he (Or.inl rfl), hu, hroom, hs⟩
      rw [h.answered]
      exact List.mem_append_right _ (List.mem_singleton.mpr rfl)
    · exact absurd hin hout
    · rw [hempty] at hin
      cases hin

variable {i : Input} {x : Proc}

theorem Tidy.other (hw : WF w) (ht : Tidy p s u n w) (h : Handled w v e q i x) (hp : p ≠ q) :
    Tidy p s u n v := by
  obtain ⟨hconns, husers, hsent, hans⟩ := h.other_conns p hp
  have hreqs : (v.procs p).roomReqs s = (w.procs p).roomReqs s := h.roomReqs_other hp
  have hctx : (v.procs p).ctxRoomId s = (w.procs p).ctxRoomId s := h.ctx_other hp
  have hpresent : Present v p s ↔ Present w p s := by
    rw [Present, Present, husers, Proc.ws, hconns, ← Proc.ws]
  refine ⟨by rw [hreqs]; exact ht.one, by rw [hreqs, hctx]; exact ht.fresh,
    by rw [hreqs, hctx]; exact ht.busy, by rw [hreqs]; exact ht.joins, ?_, ?_⟩
  · intro c hc hu
    rw [hreqs] at hc
    exact hpresent.mpr (ht.entry c hc hu)
  · intro room hin
    rw [h.db] at hin
    rw [hctx, hpresent, Proc.JoinAdded, hans]
    rcases ht.inside room hin with hadd | hnoted | ⟨t, hl⟩
    · exact Or.inl hadd
    · exact Or.inr (Or.inl hnoted)
    · exact Or.inr (Or.inr ⟨t, h.leave_fwd hw hl⟩)

/-- A present connection stays so, or its user is logged out. -/
theorem Handled.present (h : Handled w v e p i x) (hw : WF w) (hp : Present w p s) :
    Present v p s ∨ ∃ user, user.socketId = s ∧ LogsOut p i x user := by
  obtain ⟨user, hu⟩ := Option.ne_none_iff_exists'.mp hp.1
  by_cases hclosed : (v.procs p).ws s = some .closed
  · rcases h.closed_back hw s hclosed with hold | hi
    · exact absurd hold hp.2
    · exact Or.inr ⟨user, (hw.users p s user hu).1,
        Or.inl ⟨s, Or.inl hi, by rw [h.userList]; exact hu⟩⟩
  · obtain ⟨news, outs, heff⟩ := h.effect hw
    rcases heff.users s with hsame | ⟨_, gone, hsock, hdel⟩ | ⟨l, r, _, _, hset⟩
    · exact Or.inl ⟨by rw [hsame, h.userList]; exact hp.1, hclosed⟩
    · cases heff.origin _ hdel with
      | logoutDel _ hlog => exact Or.inr ⟨gone, hsock, hlog⟩
    · exact Or.inl ⟨by rw [hset]; exact Option.some_ne_none _, hclosed⟩

theorem LeavesOrderly.logsOut (hcond : LeavesOrderly p s u w e) (h : Handled w v e p i x)
    {user : User} (hs : user.socketId = s) (hl : LogsOut p i x user) :
    (w.procs p).roomReqs s = [] ∧
      (((w.procs p).ctxRoomId s).isNull = false → Shuts w e p s ∧ user.userId = u) :=
  hcond.logout i h.input user (mem_logouts p i _ user (h.logsOut_before user hl)) hs

theorem LeavesOrderly.stays (hcond : LeavesOrderly p s u w e) (h : Handled w v e p i x) (hw : WF w)
    (hp : Present w p s) (hreq : (w.procs p).roomReqs s ≠ []) : Present v p s := by
  rcases h.present hw hp with hv | ⟨user, hs, hl⟩
  · exact hv
  · exact absurd (hcond.logsOut h hs hl).1 hreq

theorem Handled.asked_stays (h : Handled w v e p i x) (hw : WF w) {t : Str} {route : Route}
    {req : Request} {now : ℕ} (ha : Asks i t route req now) (hp : Present w p s) : Present v p s := by
  rcases h.present hw hp with hv | ⟨user, _, hl⟩
  · exact hv
  · exfalso
    rcases hl with ⟨t', hd, _⟩ | ⟨_, _, _, hr, _⟩
    · rcases hd with hi | hi | ⟨req', now', hi, hroute, _⟩
      · cases ha.1.symm.trans hi
      · cases ha.1.symm.trans hi
      · cases ha.1.symm.trans hi
        rw [ha.2] at hroute
        cases hroute
    · rcases hr with ⟨_, _, hi, _⟩ | ⟨_, _, _, hi, _⟩
      · cases ha.1.symm.trans hi
      · cases ha.1.symm.trans hi

theorem Handled.logsOut_entry (h : Handled w v e p i x) (hw : WF w) {user : User}
    (hs : user.socketId = s) (hd : Disconnects i x s) (hl : LogsOut p i x user) :
    (w.procs p).userList.get s = some user := by
  rcases hl with ⟨t, _, hu⟩ | ⟨notice, after, userList, hr, _⟩
  · obtain ⟨ht, _⟩ := h.local_user hw t user hu
    rw [← h.userList, ← hs, ht]
    exact hu
  · exfalso
    have hreply : ∃ c r, i = .reply c r := by
      rcases hr with ⟨_, _, hi, _⟩ | ⟨_, _, _, hi, _⟩
      · exact ⟨_, _, hi⟩
      · exact ⟨_, _, hi⟩
    obtain ⟨c, r, hi⟩ := hreply
    rcases hd with hi' | hi' | ⟨_, _, hi', _⟩
    · cases hi.symm.trans hi'
    · cases hi.symm.trans hi'
    · cases hi.symm.trans hi'

/- The join requests of a step. -/
def joinsOf (p : Pid) (s : Str) (e : Event) : ℕ := if e.roomInOn p s then 1 else 0

theorem Stays.request (hstays : Stays p s e) (hn : n + joinsOf p s e ≤ 1) {req : Request} {now : ℕ}
    (he : e = .message p s req now) (hreq : req.isRoomReq) : n = 0 ∧ joinsOf p s e = 1 := by
  rcases hreq with hin | hout
  · have hj : joinsOf p s e = 1 := by
      rw [he]
      simp [joinsOf, Event.roomInOn, hin]
    exact ⟨by omega, hj⟩
  · exact absurd hout (hstays req now he)

theorem Tidy.busy_back (hw : WF w) (ht : Tidy p s u n w) (hn : n + joinsOf p s e ≤ 1)
    (hstays : Stays p s e) (h : Handled w v e p i x) {c : Call} (hc : c ∈ (v.procs p).roomReqs s) :
    ((w.procs p).ctxRoomId s).isNull = true := by
  rcases h.roomReqs_back hw c hc with hbusy | ⟨req, now, he, hreq⟩
  · exact ht.busy hbusy
  · exact (ht.fresh (hstays.request hn he hreq).1).2

theorem Tidy.joins_handled (hw : WF w) (ht : Tidy p s u n w) (hstays : Stays p s e)
    (h : Handled w v e p i x) {c : Call} (hc : c ∈ (v.procs p).roomReqs s) : c.isJoin = true := by
  obtain ⟨hcall, hon⟩ := List.mem_filter.mp hc
  rcases h.call_cases hw p c hcall with hold | ⟨_, ho⟩
  · exact ht.joins c (List.mem_filter.mpr ⟨hold, hon⟩)
  · cases ho with
    | addRoomUserKeys | addRoomUserMembers | addRoomUserAdd => rfl
    | roomOut t req now hd asks hs _ =>
      have ht' : hd.socketId = s := of_decide_eq_true hon
      have ha := h.arrives
      rw [asks.1, ← hs, ht'] at ha
      exact absurd asks.2 (hstays req now ha.1)
    | delRoomUserRem user roomId hd r replied =>
      cases hd with
      | none => cases hon
      | some hd => cases ht.joins _ (h.reply_req replied hon)
    | _ => cases hon

theorem Tidy.entry_handled (hw : WF w) (ht : Tidy p s u n w) (hcond : LeavesOrderly p s u w e)
    (h : Handled w v e p i x) {c : Call} (hc : c ∈ (v.procs p).roomReqs s) (hu : c.joinUser ≠ none) :
    Present v p s := by
  obtain ⟨hcall, hon⟩ := List.mem_filter.mp hc
  have keep : ∀ c', c' ∈ (w.procs p).roomReqs s → c'.joinUser ≠ none → Present v p s := by
    intro c' hc' hu'
    exact hcond.stays h hw (ht.entry c' hc' hu') (List.ne_nil_of_mem hc')
  rcases h.call_cases hw p c hcall with hold | ⟨_, ho⟩
  · exact keep c (List.mem_filter.mpr ⟨hold, hon⟩) hu
  · cases ho with
    | addRoomUserKeys t req now hd asks hs =>
      have ht' : hd.socketId = s := of_decide_eq_true hon
      obtain rfl : t = s := hs.symm.trans ht'
      have ha := h.arrives
      rw [asks.1] at ha
      refine h.asked_stays hw asks ⟨by rw [← h.userList]; exact hu, ?_⟩
      rcases ha.2 with hws | hws
      · rw [hws]
        decide
      · rw [hws]
        decide
    | addRoomUserMembers user roomId hd k ks replied =>
      exact keep _ (h.reply_req replied hon) (Option.some_ne_none user)
    | addRoomUserAdd user roomId hd r replied =>
      exact keep _ (h.reply_req replied hon) (Option.some_ne_none user)
    | _ => exact absurd rfl hu

theorem Tidy.inside_handled (hw : WF w) (ht : Tidy p s u n w) (hcond : LeavesOrderly p s u w e)
    (hnamed : JoinsNamed w) (h : Handled w v e p i x) {room : Str} (hin : u ∈ members w.db room) :
    (v.procs p).JoinAdded u room s ∨
      (((v.procs p).ctxRoomId s).text = room ∧ ((v.procs p).ctxRoomId s).isNull = false ∧
        Present v p s) ∨
      ∃ q, (v.procs q).LeavePending u room := by
  rcases ht.inside room hin with hadd | ⟨hroom, hnull, hp⟩ | ⟨q, hl⟩
  · have hbusy := JoinAdded.req hadd
    obtain ⟨user, roomId, hd, r, hm, hr, hu, hroom, hs⟩ := hadd
    rcases h.answered_cases hw hm with hstay | ⟨_, hi⟩
    · exact Or.inl ⟨user, roomId, hd, r, hstay, hr, hu, hroom, hs⟩
    · -- the callback notes the room
      have hreq := h.reply_req hi (decide_eq_true hs)
      have hp := ht.entry _ hreq (Option.some_ne_none user)
      have hown : w.own p hd.socketId := by
        obtain ⟨hok, _⟩ := h.callOk hw _ _ hi
        rw [hok.2]
        exact hok.1.1.1
      have hctx := h.joined_ctx hi hr hown
      rw [hs] at hctx
      refine Or.inr (Or.inl ⟨by rw [hctx]; exact hroom, ?_, hcond.stays h hw hp hbusy⟩)
      rw [hctx]
      exact hnamed.past p user roomId hd (Or.inr (h.reply_call hi))
  · have hsame : (v.procs p).ctxRoomId s = (w.procs p).ctxRoomId s := by
      rcases h.ctx_cases hw s with hsame | hnote
      · exact hsame
      · obtain ⟨c, r, hi, hc⟩ := hnote.req
        have hb := ht.busy (List.ne_nil_of_mem (h.reply_req hi hc))
        rw [hnull] at hb
        cases hb
    rcases h.present hw hp with hp | ⟨user, hs, hl⟩
    · rw [hsame]
      exact Or.inr (Or.inl ⟨hroom, hnull, hp⟩)
    · -- only `disconnect` may end the login, and it leaves the room
      obtain ⟨hshut, hu⟩ := (hcond.logsOut h hs hl).2 hnull
      have hd := h.disconnects hshut
      have hleave := h.leaves hw hd (h.logsOut_entry hw hs hd hl) hnull
      rw [hu, hroom] at hleave
      exact Or.inr (Or.inr ⟨p, hleave⟩)
  · exact Or.inr (Or.inr ⟨q, h.leave_fwd hw hl⟩)

theorem Tidy.handled (hw : WF w) (ht : Tidy p s u n w) (hn : n + joinsOf p s e ≤ 1)
    (hstays : Stays p s e) (hcond : LeavesOrderly p s u w e) (hnamed : JoinsNamed w)
    (h : Handled w v e p i x) : Tidy p s u (n + joinsOf p s e) v := by
  refine ⟨?_, ?_, ?_, ?_, ?_, ?_⟩
  · refine h.one_chain hw _ (roomReqOn_chained s) ht.one ?_
    intro c ho hc
    rcases ho.roomReq hc with hcont | ⟨req, now, hi, hreq⟩
    · exact Or.inl hcont
    · have ha := h.arrives
      rw [hi] at ha
      exact Or.inr (ht.fresh (hstays.request hn ha.1 hreq).1).1
  · intro hzero
    obtain ⟨hnone, hnull⟩ := ht.fresh (by omega)
    refine ⟨?_, ?_⟩
    · by_contra hne
      obtain ⟨c, hc⟩ := List.exists_mem_of_ne_nil _ hne
      rcases h.roomReqs_back hw c hc with hbusy | ⟨req, now, he, hreq⟩
      · exact hbusy hnone
      · have hone := (hstays.request hn he hreq).2
        omega
    · rcases h.ctx_cases hw s with hsame | hnote
      · rw [hsame]
        exact hnull
      · obtain ⟨c, r, hi, hc⟩ := hnote.req
        exact absurd hnone (List.ne_nil_of_mem (h.reply_req hi hc))
  · intro hne
    obtain ⟨c, hc⟩ := List.exists_mem_of_ne_nil _ hne
    rcases h.ctx_cases hw s with hsame | hnote
    · rw [hsame]
      exact ht.busy_back hw hn hstays h hc
    · exfalso
      rcases hnote with ⟨user, hd, r, hi, _, hs⟩ | ⟨user, room, hd, r, hi, _, hs, _⟩
      · -- the noted join was the only request
        exact hne (h.last_chain hw _ ht.one hi (decide_eq_true hs)
          fun c ho => Origin.added_last hi ho)
      · cases ht.joins _ (h.reply_req hi (decide_eq_true hs))
  · intro c hc
    exact ht.joins_handled hw hstays h hc
  · intro c hc hu
    exact ht.entry_handled hw hcond h hc hu
  · intro room hin
    rw [h.db] at hin
    exact ht.inside_handled hw hcond hnamed h hin

end

/-! ### Runs -/

theorem Executed.joinsOf {w v : World} {e : Event} {q : Pid} {c : Call} {r : Store.Reply}
    (h : Executed w v e q c r) (p : Pid) (s : Str) : NodeServer.joinsOf p s e = 0 := by
  rcases h.db with ⟨_, he, _⟩ | ⟨_, he, _⟩
  · rw [he]
    rfl
  · rw [he]
    rfl

theorem OneRoomIn.init {p : Pid} {s u : Str} {tr : List (World × Event)} {a : World × Event}
    (h : OneRoomIn p s u (tr ++ [a])) : OneRoomIn p s u tr := by
  refine ⟨?_, fun b hb => h.stays b (List.mem_append_left _ hb),
    fun b hb => h.alone b (List.mem_append_left _ hb)⟩
  have hle := h.once
  simp only [roomIns, List.countP_append] at hle ⊢
  omega

instance (w : World) (p : Pid) (s u : Str) : Decidable (LoggedInAs w p s u) :=
  decidable_of_iff (((w.procs p).userList.get s).any fun user => user.userId = u) (by
    simp [LoggedInAs, Option.any_eq_true])

def oneRoomInTest (p : Pid) (s u : Str) (a : World × Event) : Bool :=
  match a.2 with
  | .message _ _ req _ => getRouterByName req.route ≠ some (.handler .roomOut)
  | .exec q (.done _) =>
    match (a.1.procs q).sent with
    | .addRoomUserAdd user _ hd :: _ => user.userId ≠ u || (q = p && hd.socketId = s)
    | _ => true
  | _ => true

theorem OneRoomIn.ofTest {p : Pid} {s u : Str} {tr : List (World × Event)}
    (hone : roomIns p s tr ≤ 1) (h : tr.all (oneRoomInTest p s u) = true) : OneRoomIn p s u tr := by
  refine ⟨hone, ?_, ?_⟩
  · intro a ha req now he
    have h := List.all_eq_true.mp h a ha
    simpa only [oneRoomInTest, he, ne_eq, decide_not, Bool.not_eq_true', decide_eq_false_iff_not]
      using h
  · intro a ha q order user roomId hd he hhead hu
    have h := List.all_eq_true.mp h a ha
    obtain ⟨rest, hsent⟩ := List.head?_eq_some_iff.mp hhead
    simpa [oneRoomInTest, he, hsent, hu] using h

end NodeServer

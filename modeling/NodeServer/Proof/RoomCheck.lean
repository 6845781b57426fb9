import NodeServer.Proof.RoomErrors
import NodeServer.Proof.RoomIds

/-! # The existence check of the room operations

Joining, closing and broadcasting look the room up with `KEYS` on the client's
text and go on with the same text as a literal key. The text may match rooms it
does not name. -/

namespace NodeServer

open DBModelKeys

/-! ### One check -/

/- The room whose existence the handler of a route checks before it goes on. -/
def Route.checkedRoom (route : Route) (req : Request) (noted : JsVal) : Option JsVal :=
  match route with
  | .roomIn | .roomClose => some req.roomId
  | .sendLiveChat => if noted.isNull then none else some noted
  | _ => none

/- The key of the room itself. -/
def RoomKnown (w : World) (roomId : JsVal) : Prop := w.db.get (roomPattern roomId.text) ≠ none

/- The text matches no room but the one it names. -/
def OnlyItself (w : World) (roomId : JsVal) : Prop :=
  ∀ n, RoomOpen w n → Glob.stringmatch roomId.text (natText n) = true → roomId.text = natText n

/- The request on its own, with its `KEYS` executed in `m` and its callback run
in `v`. -/
structure Checked (p : Pid) (s : Str) (req : Request) (now : ℕ) (w m v : World) : Prop where
  executed : ∃ u order, step w.alone (.message p s req now) = some u ∧
    step u (.exec p (.done order)) = some m
  callback : step m (.reply p) = some v

/- The callback answers that there is no such room. -/
def TurnedDown (p : Pid) (m : World) : Prop :=
  ∃ answer, m.resolves (.reply p) = some answer ∧ answer.resData.errmsg = roomNotExist

/- The callback has issued the next command of the operation. -/
def Proceeds (p : Pid) (v : World) : Prop := (v.procs p).calls ≠ []

/- The calls that check for a room. -/
inductive IsCheck (user : Option User) (roomId : JsVal) : Call → Prop
  | join (h : Handler) : IsCheck user roomId (.addRoomUserKeys user roomId h)
  | close (h : Handler) : IsCheck user roomId (.delRoomKeys user roomId h)
  | chat (msg : JsVal) (h : Handler) : IsCheck user roomId (.broadcastKeys user roomId msg h)

theorem roomPattern_match (t k : Str) :
    Glob.stringmatch (roomPattern t) (roomPattern k) = true ↔ Glob.stringmatch t k = true := by
  have hform : ∀ r, roomPattern r = (RoomIdKey ++ ['-']) ++ r := fun r => by simp [roomPattern]
  rw [hform t, hform k, Glob.stringmatch_stem _ _ _ (by decide)]
  constructor
  · rintro ⟨r, heq, hr⟩
    rw [List.append_cancel_left heq]
    exact hr
  · intro hr
    exact ⟨k, rfl, hr⟩

section

variable {user : Option User} {roomId : JsVal} {c : Call}

theorem IsCheck.txn (h : IsCheck user roomId c) :
    c.txn = .one (.keys (roomPattern roomId.text)) := by
  cases h with
  | join | close | chat => rfl

/-- Without a user the callback throws; otherwise it answers when nothing was
found and goes on when something was. -/
theorem IsCheck.turned (h : IsCheck user roomId c) (y : Proc) (found : List Str) :
    (∃ answer, y.replyAnswer c (.array found) = some answer ∧
      answer.resData.errmsg = roomNotExist) ↔ user.isSome = true ∧ found = [] := by
  cases h <;> cases user <;> cases found <;>
    simp [Proc.replyAnswer, Handler.result, Handler.withError, Store.Reply.err]

theorem IsCheck.next (h : IsCheck user roomId c) (p : Pid) (x : Proc) (found : List Str)
    (hu : user.isSome = true) : x.replyCalls p c (.array found) = [] ↔ found = [] := by
  obtain ⟨user, rfl⟩ := Option.isSome_iff_exists.mp hu
  cases h <;> cases found <;> simp [Proc.replyCalls]

variable {route : Route} {x : Proc} {s : Str} {req : Request}

theorem check_issued (p : Pid) (now : ℕ)
    (h : route.checkedRoom req (x.ctxRoomId s) = some roomId) :
    ∃ c, x.requestCalls p s req now route = [c] ∧ IsCheck (x.userList.get s) roomId c ∧
      c.handler = some (x.getBaseRespond s req.id route) := by
  cases route with
  | roomIn =>
    cases h
    exact ⟨_, rfl, .join _, rfl⟩
  | roomClose =>
    cases h
    exact ⟨_, rfl, .close _, rfl⟩
  | sendLiveChat =>
    simp only [Route.checkedRoom] at h
    split at h
    · cases h
    · next hroom =>
      cases h
      refine ⟨_, ?_, .chat req.msg (x.getBaseRespond s req.id .sendLiveChat), rfl⟩
      simp only [Proc.requestCalls, hroom]
      rfl
  | _ => cases h

end

/-- Something matches exactly when a room that exists does. -/
theorem found_iff {w : World} (hw : WF w) (roomId : JsVal) (order : List Str) (r : Store.Reply)
    (hr : (Store.keys (roomPattern roomId.text) w.db).inOrder order = some r) :
    r = .array order ∧ (order ≠ [] ↔ ∃ n, RoomOpen w n ∧
      Glob.stringmatch roomId.text (natText n) = true) := by
  obtain ⟨rfl, -, hmem⟩ := Store.keys_inOrder order _ w.db r hr
  refine ⟨rfl, ?_⟩
  have hfinds := finds_iff hw 0 [] [] roomId
  constructor
  · intro hne
    obtain ⟨k, hk⟩ := List.exists_mem_of_ne_nil order hne
    obtain ⟨⟨value, hv⟩, hmatch⟩ := (hmem k).mp hk
    obtain ⟨n, hn, hnm⟩ := hfinds.mpr ⟨k, by rw [hv]; simp, hmatch⟩
    exact ⟨n, hn, (roomPattern_match _ _).mp hnm⟩
  · rintro ⟨n, hn, hnm⟩
    have hk := (hmem (roomPattern (natText n))).mpr
      ⟨Option.ne_none_iff_exists'.mp hn, (roomPattern_match _ _).mpr hnm⟩
    exact List.ne_nil_of_mem hk

section

variable {p : Pid} {s : Str} {req : Request} {now : ℕ} {w m v : World} {route : Route}
  {roomId : JsVal}

/- The request has sent its check and nothing else is in flight. -/
theorem check_sent (hw : WF w) (hroute : getRouterByName req.route = some (.handler route))
    (hroom : route.checkedRoom req ((w.procs p).ctxRoomId s) = some roomId) {u : World}
    (hs : step w.alone (.message p s req now) = some u) :
    WF u ∧ u.db = w.db ∧ ∃ c, (u.procs p).sent = [c] ∧ (u.procs p).answered = [] ∧
      IsCheck ((w.procs p).userList.get s) roomId c ∧
      ∃ hd, c.handler = some hd ∧ hd.socketId = s ∧ hd.resData.id = req.id ∧ hd.resData.route = route := by
  obtain ⟨q, i, x, h⟩ := step_handled hs rfl
  obtain ⟨rfl, rfl⟩ := inputOf_message h.input
  obtain ⟨-, hcalls, -⟩ := h.alone_calls hw
  have hctx : x.ctxRoomId s = (w.procs p).ctxRoomId s := by
    simp only [Proc.ctxRoomId, h.conns]
    rfl
  have husers : x.userList = (w.procs p).userList := h.userList
  obtain ⟨c, hc, hcheck, hhandler⟩ := check_issued p now (hctx ▸ hroom)
  have hans : (u.procs p).answered = [] := by
    obtain ⟨news, outs, heff⟩ := h.effect hw.alone
    have hx : x.answered = [] := h.answered.symm
    rw [heff.answered, hx]
  have hsent : (u.procs p).sent = [c] := by
    simp only [Proc.issued, hroute] at hcalls
    rw [Proc.calls, hans] at hcalls
    exact hcalls.trans hc
  exact ⟨hw.alone.step hs, h.db, c, hsent, hans, husers ▸ hcheck, _, hhandler,
    getBaseRespond_request x s req.id route⟩

/- The callback of the check, the only call in flight: it is handed the keys found. -/
structure CheckCallback (p : Pid) (s : Str) (req : Request) (route : Route) (roomId : JsVal)
    (w m v : World) (c : Call) (found : List Str) (x : Proc) : Prop where
  wf : WF m
  handled : Handled m v (.reply p) p (.reply c (.array found)) x
  check : IsCheck ((w.procs p).userList.get s) roomId c
  request : ∃ hd, c.handler = some hd ∧ hd.socketId = s ∧ hd.resData.id = req.id ∧ hd.resData.route = route
  alone : x.calls = []
  found : found ≠ [] ↔ ∃ n, RoomOpen w n ∧ Glob.stringmatch roomId.text (natText n) = true

theorem Checked.runs (hw : WF w) (hroute : getRouterByName req.route = some (.handler route))
    (hroom : route.checkedRoom req ((w.procs p).ctxRoomId s) = some roomId)
    (h : Checked p s req now w m v) : ∃ c found x, CheckCallback p s req route roomId w m v c found x := by
  obtain ⟨u, order, hreq, hexec⟩ := h.executed
  obtain ⟨hu, hdb, c, hsent, hans, hcheck, hrequest⟩ := check_sent hw hroute hroom hreq
  obtain ⟨c', r, he⟩ := exec_cases u m p (.done order) hexec
  have hqueue := he.sent
  rw [hsent] at hqueue
  obtain ⟨rfl, hrest⟩ := List.cons.inj hqueue
  have hanswered := he.answered
  rw [hans, List.nil_append] at hanswered
  have hr : (Store.keys (roomPattern roomId.text) w.db).inOrder order = some r := by
    rcases he.db with ⟨order', horder, -, hr⟩ | ⟨message, hfailed, -, -⟩
    · cases horder
      rw [hcheck.txn, hdb] at hr
      exact hr
    · cases hfailed
  obtain ⟨rfl, hfound⟩ := found_iff hw roomId order r hr
  obtain ⟨q, i, x, hh⟩ := step_handled h.callback rfl
  have hinput : inputOf m (.reply p) = some (p, .reply c (.array order)) := by
    simp only [inputOf, hanswered]
  obtain ⟨rfl, rfl⟩ := Prod.mk.inj (Option.some.inj (hinput.symm.trans hh.input))
  have hm : WF m := hu.step hexec
  refine ⟨c, order, x, hm, hh, hcheck, hrequest, ?_, hfound⟩
  obtain ⟨hbefore, -⟩ := hh.calls_issued hm
  rw [Proc.calls, hanswered, ← hrest] at hbefore
  exact (List.cons.inj hbefore).2.symm

theorem Checked.outcome (hw : WF w) (hroute : getRouterByName req.route = some (.handler route))
    (hroom : route.checkedRoom req ((w.procs p).ctxRoomId s) = some roomId)
    (h : Checked p s req now w m v) :
    ∃ found : List Str,
      (found ≠ [] ↔ ∃ n, RoomOpen w n ∧ Glob.stringmatch roomId.text (natText n) = true) ∧
      (TurnedDown p m ↔ ((w.procs p).userList.get s).isSome = true ∧ found = []) ∧
      (((w.procs p).userList.get s).isSome = true → (Proceeds p v ↔ found ≠ [])) := by
  obtain ⟨c, found, x, hc⟩ := h.runs hw hroute hroom
  refine ⟨found, hc.found, ?_, ?_⟩
  · rw [TurnedDown, hc.handled.resolves]
    exact hc.check.turned _ found
  · intro hlogged
    obtain ⟨-, hafter⟩ := hc.handled.calls_issued hc.wf
    rw [hc.alone, List.nil_append] at hafter
    rw [Proceeds, hafter, not_iff_not]
    exact hc.check.next p x found hlogged

/-- What the callback answers is the response of the request. -/
theorem CheckCallback.answer {c : Call} {found : List Str} {x : Proc}
    (h : CheckCallback p s req route roomId w m v c found x) {answer : Handler}
    (ha : m.resolves (.reply p) = some answer) :
    answer.socketId = s ∧ answer.resData.id = req.id ∧ answer.resData.route = route := by
  obtain ⟨hd, hhd, hs, hid, hroute⟩ := h.request
  rw [h.handled.resolves] at ha
  rcases replyAnswer_handler ha with ⟨l, rfl⟩ | ⟨hd', data, err, hhd', rfl⟩
  · cases hhd
  · rw [hhd] at hhd'
    cases hhd'
    obtain ⟨hs', hid', hroute'⟩ := hd.result_request data err
    exact ⟨hs'.trans hs, hid'.trans hid, hroute'.trans hroute⟩

/-- A client whose connection is open at the callback is told so exactly when it is turned down. -/
theorem Checked.told_iff (hw : WF w) (hroute : getRouterByName req.route = some (.handler route))
    (hroom : route.checkedRoom req ((w.procs p).ctxRoomId s) = some roomId)
    (h : Checked p s req now w m v) (hopen : (m.procs p).ws s = some .opened) :
    (∃ resData, (v.procs p).responses s = (m.procs p).responses s ++ [resData] ∧
      resData.id = req.id ∧ resData.route = route ∧ resData.errmsg = roomNotExist) ↔ TurnedDown p m := by
  obtain ⟨c, found, x, hc⟩ := h.runs hw hroute hroom
  have hours : m.ResolvesFor p s (.reply p) := by
    intro answer ha
    exact ⟨by rw [hc.handled.input]; rfl, (hc.answer ha).1⟩
  rw [step_responses hc.wf h.callback hopen hours]
  constructor
  · rintro ⟨resData, hnew, -, -, herr⟩
    cases ha : m.resolves (.reply p) with
    | none =>
      rw [ha] at hnew
      simp at hnew
    | some answer =>
      rw [ha] at hnew
      cases List.append_cancel_left hnew
      exact ⟨answer, ha, herr⟩
  · rintro ⟨answer, ha, herr⟩
    obtain ⟨-, hid, hroute'⟩ := hc.answer ha
    refine ⟨answer.resData, ?_, hid, hroute', herr⟩
    rw [ha]
    rfl

/-- The check of a request can always be carried out. -/
theorem checked_exists (hw : WF w) (hroute : getRouterByName req.route = some (.handler route))
    (hroom : route.checkedRoom req ((w.procs p).ctxRoomId s) = some roomId)
    (hws : (w.procs p).ws s = some .opened ∨ (w.procs p).ws s = some .closing) (now : ℕ) :
    ∃ m v, Checked p s req now w m v := by
  have hreq := message_step w.alone p s req now hws
  obtain ⟨-, -, c, hsent, hans, hcheck, -⟩ := check_sent hw hroute hroom hreq
  have hserve := serve_call _ p c [] _ _ hsent hans
    (by rw [hcheck.txn]; exact Store.run_inOrder _ _)
  obtain ⟨m, hm, hv⟩ := Option.bind_eq_some_iff.mp hserve
  obtain ⟨v, hreply, -⟩ := Option.bind_eq_some_iff.mp hv
  exact ⟨m, v, ⟨_, _, hreq, hm⟩, hreply⟩

/- What makes the check exact: no other room matches, and a missing room is
asked for by a user who has logged in. -/
structure ExactCheck (w : World) (p : Pid) (s : Str) (roomId : JsVal) : Prop where
  only : OnlyItself w roomId
  logged : ¬ RoomKnown w roomId → ((w.procs p).userList.get s).isSome = true

/-- A room that exists is found under its own text. -/
theorem RoomKnown.found (hw : WF w) (h : RoomKnown w roomId) :
    ∃ n, RoomOpen w n ∧ roomId.text = natText n ∧
      Glob.stringmatch roomId.text (natText n) = true := by
  obtain ⟨value, hv⟩ := Option.ne_none_iff_exists'.mp h
  obtain ⟨n, hn, -⟩ := entry_room w.own w.db hw.db hv
  refine ⟨n, ?_, hn, ?_⟩
  · rw [RoomOpen, ← hn]
    exact h
  · rw [hn, Glob.stringmatch_plain _ _ (plain_natText n)]

theorem Checked.exact_iff (hw : WF w) (hroute : getRouterByName req.route = some (.handler route))
    (hroom : route.checkedRoom req ((w.procs p).ctxRoomId s) = some roomId)
    (h : Checked p s req now w m v) :
    ((¬ TurnedDown p m ↔ RoomKnown w roomId) ↔ ExactCheck w p s roomId) ∧
      (((w.procs p).userList.get s).isSome = true → (Proceeds p v ↔ ¬ TurnedDown p m)) := by
  obtain ⟨found, hfound, hturned, hproceeds⟩ := h.outcome hw hroute hroom
  constructor
  · constructor
    · intro hexact
      constructor
      · intro n hn hmatch
        have hsome : found ≠ [] := hfound.mpr ⟨n, hn, hmatch⟩
        have hknown : RoomKnown w roomId := hexact.mp fun ht => hsome (hturned.mp ht).2
        -- a text that names a room is a number, and a number matches itself only
        obtain ⟨k, -, hk, -⟩ := hknown.found hw
        rw [hk] at hmatch ⊢
        exact ((Glob.stringmatch_plain _ _ (plain_natText k)).mp hmatch).symm
      · intro hmissing
        exact (hturned.mp (not_not.mp (mt hexact.mp hmissing))).1
    · intro hexact
      constructor
      · intro hnot
        by_contra hmissing
        refine hnot (hturned.mpr ⟨hexact.logged hmissing, ?_⟩)
        by_contra hsome
        obtain ⟨n, hn, hmatch⟩ := hfound.mp hsome
        refine hmissing ?_
        rw [RoomKnown, hexact.only n hn hmatch]
        exact hn
      · intro hknown hdown
        obtain ⟨n, hn, -, hmatch⟩ := hknown.found hw
        exact hfound.mpr ⟨n, hn, hmatch⟩ (hturned.mp hdown).2
  · intro hlogged
    rw [hproceeds hlogged, hturned]
    simp [hlogged]

/-- Where the check is exact, the response on an open connection is that there is no such room
exactly when the key of the room is missing. -/
theorem Checked.told_exactly (hw : WF w) (hroute : getRouterByName req.route = some (.handler route))
    (hroom : route.checkedRoom req ((w.procs p).ctxRoomId s) = some roomId)
    (h : Checked p s req now w m v) (hopen : (m.procs p).ws s = some .opened)
    (hexact : ExactCheck w p s roomId) :
    (∃ resData, (v.procs p).responses s = (m.procs p).responses s ++ [resData] ∧
      resData.id = req.id ∧ resData.route = route ∧ resData.errmsg = roomNotExist) ↔
      ¬ RoomKnown w roomId := by
  have hknown := (h.exact_iff hw hroute hroom).1.mpr hexact
  rw [h.told_iff hw hroute hroom hopen, ← hknown, not_not]

end

/-! ### Rooms that were never given out -/

/- The room the event creates: the `HMSET` of its `addRoom` is executed. -/
def World.opens (w : World) : Event → Option ℕ
  | .exec p (.done _) => (w.procs p).sent.head?.bind Call.heldId
  | _ => none

def openedRooms (tr : List (World × Event)) : List ℕ := tr.filterMap fun a => a.1.opens a.2

/- The text of a room id that an `addRoom` of the run has issued. -/
def IssuedRoom (tr : List (World × Event)) (t : Str) : Prop := ∃ n ∈ openedRooms tr, t = natText n

/- Member sets and `ctx.roomId` are about issued rooms only. -/
structure OnlyIssued (tr : List (World × Event)) (v : World) : Prop where
  members : ∀ t, v.db.get (memberPattern t) ≠ none → IssuedRoom tr t
  ctx : ∀ p s, ((v.procs p).ctxRoomId s).isNull = false →
    IssuedRoom tr ((v.procs p).ctxRoomId s).text

def Call.joinCheck : Call → Option JsVal
  | .addRoomUserKeys _ roomId _ => some roomId
  | _ => none

/- The room a join looks for with the event. -/
def World.joinChecks (w : World) : Event → Option JsVal
  | .exec p (.done _) => (w.procs p).sent.head?.bind Call.joinCheck
  | _ => none

/- No join finds a room it does not name. -/
def FindsNamed (w : World) (e : Event) : Prop :=
  ∀ roomId, w.joinChecks e = some roomId → OnlyItself w roomId

/- The calls of a join past its check. -/
def Call.joins : Call → Option JsVal
  | .addRoomUserMembers _ roomId _ | .addRoomUserAdd _ roomId _ => some roomId
  | _ => none

structure Traced (tr : List (World × Event)) (v : World) : Prop where
  rooms : ∀ n, RoomOpen v n → n ∈ openedRooms tr
  found : ∀ p user roomId h k ks,
    (.addRoomUserKeys user roomId h, .array (k :: ks)) ∈ (v.procs p).answered →
    IssuedRoom tr roomId.text
  joins : ∀ p, ∀ c ∈ (v.procs p).calls, ∀ roomId, c.joins = some roomId →
    IssuedRoom tr roomId.text
  only : OnlyIssued tr v

theorem openedRooms_snoc (tr : List (World × Event)) (w : World) (e : Event) :
    openedRooms (tr ++ [(w, e)]) = openedRooms tr ++ (w.opens e).toList := by
  rw [openedRooms, List.filterMap_append, ← openedRooms]
  cases h : w.opens e with
  | none => simp [h]
  | some n => simp [h]

theorem IssuedRoom.snoc {tr : List (World × Event)} {t : Str} (h : IssuedRoom tr t) (w : World)
    (e : Event) : IssuedRoom (tr ++ [(w, e)]) t := by
  obtain ⟨n, hn, rfl⟩ := h
  refine ⟨n, ?_, rfl⟩
  rw [openedRooms_snoc]
  exact List.mem_append_left _ hn

theorem Traced.initial : Traced [] World.initial where
  rooms n hn := absurd rfl hn
  found p user roomId h k ks hm := by cases hm
  joins p c hc := by cases hc
  only :=
    { members := fun t ht => absurd rfl ht
      ctx := fun p s hs => by cases hs }

section

variable {tr : List (World × Event)} {w v : World} {e : Event} {p : Pid} {c : Call}
  {r : Store.Reply}

/-- A member set appears with the `SADD` of a join. -/
theorem Executed.member_set (h : Executed w v e p c r) (t : Str)
    (hv : v.db.get (memberPattern t) ≠ none) :
    w.db.get (memberPattern t) ≠ none ∨ ∃ user roomId hd, c = .addRoomUserAdd user roomId hd ∧
      roomId.text = t := by
  rcases h.db with ⟨order, -, hdb, -⟩ | ⟨message, -, hdb, -⟩
  · rw [hdb] at hv
    rcases run_cases c w.db (memberPattern t) with hsame | hwrites
    · rw [hsame] at hv
      exact Or.inl hv
    · cases hwrites with
      | login l k hk => exact absurd hk.symm (uniquePattern_ne_memberPattern _ _ _)
      | logout user k hk => exact absurd hk.symm (uniquePattern_ne_memberPattern _ _ _)
      | count user hd k hk => exact absurd hk (memberPattern_ne_maxId _)
      | create n hd k hk => exact absurd hk.symm (roomPattern_ne_memberPattern _ _)
      | close roomId hd k hk => exact absurd (delRoom_run w.db roomId.text _ hk) hv
      | join user roomId hd k hk =>
        exact Or.inr ⟨user, roomId, hd, rfl, ((memberPattern_inj _ _).mp hk).symm⟩
      | leave user roomId hd k hk =>
        left
        intro hnone
        rw [hk] at hnone hv
        refine hv ?_
        show (Store.srem _ _ w.db).1.get _ = none
        rw [Store.srem, hnone]
        exact hnone
  · rw [hdb] at hv
    exact Or.inl hv

theorem Executed.opens (h : Executed w v e p c r) {order : List Str} (he : e = .exec p (.done order)) :
    w.opens e = c.heldId ∧ w.joinChecks e = c.joinCheck := by
  subst he
  simp only [World.opens, World.joinChecks, h.sent_head, Option.bind_some, and_self]

theorem Executed.room_opened (h : Executed w v e p c r) (hw : WF w) (n : ℕ) (hn : RoomOpen v n) :
    RoomOpen w n ∨ w.opens e = some n := by
  rcases h.db with ⟨order, he, -, -⟩ | ⟨message, -, hdb, -⟩
  · rcases h.room_cases hw (natText n) with hsame | ⟨m, hd, rfl, hm, -⟩ | ⟨_, _, _, _, _, _, hgone⟩
    · rw [RoomOpen, hsame] at hn
      exact Or.inl hn
    · rw [(h.opens he).1, natText_injective hm]
      exact Or.inr rfl
    · exact absurd hgone hn
  · rw [RoomOpen, hdb] at hn
    exact Or.inl hn

/-- The `KEYS` of a join that names the rooms it finds gives out an issued room. -/
theorem Traced.check (ht : Traced tr w) (hw : WF w) (hok : FindsNamed w e) {user : Option User}
    {roomId : JsVal} {hd : Handler} {k : Str} {ks : List Str}
    (h : Executed w v e p (.addRoomUserKeys user roomId hd) (.array (k :: ks))) :
    IssuedRoom tr roomId.text := by
  rcases h.db with ⟨order, he, -, hr⟩ | ⟨message, -, -, hr⟩
  · obtain ⟨horder, hfound⟩ := found_iff hw roomId order _ hr
    rw [← Store.Reply.array.inj horder] at hfound
    obtain ⟨n, hn, hmatch⟩ := hfound.mp (List.cons_ne_nil k ks)
    exact ⟨n, ht.rooms n hn, hok roomId (h.opens he).2 n hn hmatch⟩
  · cases hr

theorem Traced.executed (ht : Traced tr w) (hw : WF w) (hok : FindsNamed w e)
    (h : Executed w v e p c r) : Traced (tr ++ [(w, e)]) v where
  rooms n hn := by
    rw [openedRooms_snoc]
    rcases h.room_opened hw n hn with hold | hnew
    · exact List.mem_append_left _ (ht.rooms n hold)
    · rw [hnew]
      exact List.mem_append_right _ (List.mem_singleton_self n)
  found q user roomId hd k ks hm := by
    rcases h.mem_answered q _ _ hm with hold | ⟨-, rfl, rfl⟩
    · exact (ht.found q user roomId hd k ks hold).snoc w e
    · exact (ht.check hw hok h).snoc w e
  joins q d hd roomId hroom := by
    rw [h.calls q] at hd
    exact (ht.joins q d hd roomId hroom).snoc w e
  only :=
    { members := by
        intro t hv
        rcases h.member_set t hv with hold | ⟨user, roomId, hd, rfl, rfl⟩
        · exact (ht.only.members t hold).snoc w e
        · exact (ht.joins p _ h.mem_calls roomId rfl).snoc w e
      ctx := by
        intro q s hs
        rw [h.ctx q s] at hs ⊢
        exact (ht.only.ctx q s hs).snoc w e }

variable {i : Input} {x : Proc}

theorem Origin.joins {roomId : JsVal} (ho : Origin p i x c) (hc : c.joins = some roomId) :
    (∃ user hd k ks, i = .reply (.addRoomUserKeys (some user) roomId hd) (.array (k :: ks))) ∨
      ∃ user hd r, i = .reply (.addRoomUserMembers user roomId hd) r := by
  cases ho with
  | addRoomUserMembers user room hd k ks replied =>
    cases hc
    exact Or.inl ⟨user, hd, k, ks, replied⟩
  | addRoomUserAdd user room hd r replied =>
    cases hc
    exact Or.inr ⟨user, hd, r, replied⟩
  | _ => cases hc

theorem Traced.handled (ht : Traced tr w) (hw : WF w) (h : Handled w v e p i x) :
    Traced (tr ++ [(w, e)]) v where
  rooms n hn := by
    rw [openedRooms_snoc]
    rw [RoomOpen, h.db] at hn
    exact List.mem_append_left _ (ht.rooms n hn)
  found q user roomId hd k ks hm :=
    (ht.found q user roomId hd k ks (h.answered_sub hw q _ hm)).snoc w e
  joins q c hc roomId hroom := by
    rcases h.call_cases hw q c hc with hold | ⟨rfl, ho⟩
    · exact (ht.joins q c hold roomId hroom).snoc w e
    · rcases ho.joins hroom with ⟨user, hd, k, ks, hi⟩ | ⟨user, hd, r, hi⟩
      · exact (ht.found q (some user) roomId hd k ks (h.reply_mem _ _ hi)).snoc w e
      · exact (ht.joins q _ (h.reply_call hi) roomId rfl).snoc w e
  only :=
    { members := by
        intro t hv
        rw [h.db] at hv
        exact (ht.only.members t hv).snoc w e
      ctx := by
        intro q s hs
        by_cases hq : q = p
        · subst hq
          rcases h.ctx_cases hw s with hsame | ⟨user, hd, r, hi, -⟩ | ⟨_, _, _, _, _, _, _, hundef⟩
          · rw [hsame] at hs ⊢
            exact (ht.only.ctx q s hs).snoc w e
          · exact (ht.joins q _ (h.reply_call hi) _ rfl).snoc w e
          · rw [hundef] at hs
            cases hs
        · rw [h.ctx_other hq] at hs ⊢
          exact (ht.only.ctx q s hs).snoc w e }

end

theorem traced_path {tr : List (World × Event)} {v : World}
    (hrun : Run.Path step World.initial tr v) :
    WF v ∧ ((∀ a ∈ tr, FindsNamed a.1 a.2) → Traced tr v) := by
  refine hrun.invariant (fun tr v => WF v ∧ ((∀ a ∈ tr, FindsNamed a.1 a.2) → Traced tr v))
    ⟨WF.initial, fun _ => Traced.initial⟩ ?_
  rintro tr w e v ⟨hw, ih⟩ hs
  refine ⟨hw.step hs, fun hok => ?_⟩
  have ht := ih fun a ha => hok a (List.mem_append_left _ ha)
  rcases step_cases w v e hs with ⟨p, c, r, h⟩ | ⟨p, i, x, h⟩
  · exact ht.executed hw (hok (w, e) (List.mem_append_right _ (List.mem_singleton_self _))) h
  · exact ht.handled hw h

/-- A room request is told that there is no such room exactly when the key of the
room is missing, if no other room matches its text (and a user asks). In runs
without such a match, member sets and noted rooms are rooms an `addRoom` issued. -/
theorem room_check_exact (tr : List (World × Event)) (w : World)
    (hrun : Run.Path step World.initial tr w) :
    (∀ p s req now route roomId,
      ((w.procs p).ws s = some .opened ∨ (w.procs p).ws s = some .closing) →
      getRouterByName req.route = some (.handler route) →
      route.checkedRoom req ((w.procs p).ctxRoomId s) = some roomId →
      (∃ m v, Checked p s req now w m v) ∧
      ∀ m v, Checked p s req now w m v →
        ((¬ TurnedDown p m ↔ RoomKnown w roomId) ↔ ExactCheck w p s roomId) ∧
        (((w.procs p).userList.get s).isSome = true → (Proceeds p v ↔ ¬ TurnedDown p m))) ∧
    ((∀ a ∈ tr, FindsNamed a.1 a.2) → OnlyIssued tr w) := by
  obtain ⟨hw, htraced⟩ := traced_path hrun
  refine ⟨?_, fun hok => (htraced hok).only⟩
  intro p s req now route roomId hws hroute hroom
  exact ⟨checked_exists hw hroute hroom hws now, fun m v h => h.exact_iff hw hroute hroom⟩

/-! ### A joins room 1, and joins a pattern -/

theorem OnlyItself.of_plain (w : World) {roomId : JsVal} (h : Glob.plain roomId.text) :
    OnlyItself w roomId :=
  fun _ _ hmatch => ((Glob.stringmatch_plain _ _ h).mp hmatch).symm

def joinOf (room : Str) : Request := Route.roomIn.request none (.str room)

/- A joins with the text, which matches room 1. -/
def joinAsTrace (room : Str) : List Event :=
  roomTrace ++ .message 0 (socketIdOf ['A']) (joinOf room) 6 :: served 0 [roomPattern ['1']] ++
    served 0 [] ++ served 0 []

def joinedAs (room : Str) : World := Run.ends step World.initial (joinAsTrace room)

theorem room_check_exact_joined :
    ((joinedAs ['1']).db.get (memberPattern ['1'])).isSome = true ∧
      OnlyIssued (Run.steps step World.initial (joinAsTrace ['1'])) (joinedAs ['1']) ∧
      ∃ m v, Checked 0 (socketIdOf ['A']) (joinOf ['1']) 7 (joinedAs ['1']) m v ∧
        ((¬ TurnedDown 0 m ↔ RoomKnown (joinedAs ['1']) (.str ['1'])) ↔
          ExactCheck (joinedAs ['1']) 0 (socketIdOf ['A']) (.str ['1'])) := by
  obtain ⟨hrun, hset, hopen, hplain⟩ :
      (Run.runs step World.initial (joinAsTrace ['1'])).isSome = true ∧
      ((joinedAs ['1']).db.get (memberPattern ['1'])).isSome = true ∧
      ((joinedAs ['1']).procs 0).ws (socketIdOf ['A']) = some .opened ∧
      ((Run.steps step World.initial (joinAsTrace ['1'])).all fun a =>
        (a.1.joinChecks a.2).all fun roomId => decide (Glob.plain roomId.text)) = true := by
    decide +kernel
  obtain ⟨hcheck, honly⟩ := room_check_exact _ _ (Run.path_ends (joinAsTrace ['1']) hrun)
  obtain ⟨⟨m, v, hmv⟩, hexact⟩ := hcheck 0 (socketIdOf ['A']) (joinOf ['1']) 7 .roomIn (.str ['1'])
    (Or.inl hopen) (by decide) rfl
  refine ⟨hset, honly ?_, m, v, hmv, (hexact m v hmv).1⟩
  intro a ha roomId hroom
  have htest := List.all_eq_true.mp hplain a ha
  rw [hroom] at htest
  exact OnlyItself.of_plain a.1 (of_decide_eq_true htest)

/-- A joins room `*` while room 1 is open: the check lets it pass, and a member
set for `*` comes into being. -/
theorem room_check_by_pattern :
    (¬ ∀ (w : World) (p : Pid) (s : Str) (req : Request) (now : ℕ) (route : Route) (roomId : JsVal),
      Reachable w → (w.procs p).ws s = some .opened →
      ((w.procs p).userList.get s).isSome = true →
      getRouterByName req.route = some (.handler route) →
      route.checkedRoom req ((w.procs p).ctxRoomId s) = some roomId →
      ∀ m v, Checked p s req now w m v → (¬ TurnedDown p m ↔ RoomKnown w roomId)) ∧
    ¬ ∀ tr w, Run.Path step World.initial tr w → OnlyIssued tr w := by
  constructor
  · intro hall
    obtain ⟨hrun, hopen, hlogged, hroom⟩ :
        (Run.runs step World.initial roomTrace).isSome = true ∧
        ((Run.ends step World.initial roomTrace).procs 0).ws (socketIdOf ['A']) = some .opened ∧
        (((Run.ends step World.initial roomTrace).procs 0).userList.get
          (socketIdOf ['A'])).isSome = true ∧
        ((Run.ends step World.initial roomTrace).db.get (roomPattern (natText 1))).isSome = true := by
      decide +kernel
    have hreach : Reachable (Run.ends step World.initial roomTrace) := Run.reach_ends _ hrun
    have hroute : getRouterByName (joinOf ['*']).route = some (.handler .roomIn) := by decide
    obtain ⟨m, v, hmv⟩ := checked_exists (WF.initial.reach hreach) hroute rfl (Or.inl hopen) 6
    have hexact := ((hmv.exact_iff (WF.initial.reach hreach) hroute rfl).1).mp
      (hall _ 0 _ _ 6 .roomIn (.str ['*']) hreach hopen hlogged hroute rfl m v hmv)
    have honly := hexact.only 1 (Option.isSome_iff_ne_none.mp hroom) (by decide)
    exact absurd honly (by decide)
  · intro hall
    obtain ⟨hrun, hset, hids⟩ :
        (Run.runs step World.initial (joinAsTrace ['*'])).isSome = true ∧
        ((joinedAs ['*']).db.get (memberPattern ['*'])).isSome = true ∧
        openedRooms (Run.steps step World.initial (joinAsTrace ['*'])) = [1] := by
      decide +kernel
    obtain ⟨n, hn, heq⟩ := (hall _ _ (Run.path_ends (joinAsTrace ['*']) hrun)).members ['*']
      (Option.isSome_iff_ne_none.mp hset)
    rw [hids] at hn
    rw [List.mem_singleton.mp hn] at heq
    exact absurd heq (by decide)

end NodeServer

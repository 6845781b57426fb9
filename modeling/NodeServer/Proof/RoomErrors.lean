import NodeServer.Proof.CloseNotices
import NodeServer.Proof.LoginGate
import NodeServer.Proof.RoomRequests

/-! # Room requests under Redis errors

A room request is a chain of at most three calls, one in flight at a time. Only
the last one writes rooms or members, and only its callback notes a room. An
error on the way either ends the chain with a response or is passed over. -/

namespace NodeServer

open DBModelKeys

/-! ### The request and its resolution -/

def Route.isRoomRequest : Route → Bool
  | .roomCreate | .roomClose | .roomIn | .roomOut | .sendLiveChat => true
  | _ => false

/- The call with the final command of a route's operation: `HMSET`, `EXEC`,
`SADD`, `SREM` and `SMEMBERS`. -/
def Call.finalOf : Route → Call → Bool
  | .roomCreate, .addRoomSet _ _ => true
  | .roomClose, .delRoomExec _ _ => true
  | .roomIn, .addRoomUserAdd _ _ _ => true
  | .roomOut, .delRoomUserRem _ _ _ => true
  | .sendLiveChat, .broadcastMembers _ _ _ _ => true
  | _, _ => false

/- The call a step executes without an error. -/
def World.succeeds (w : World) : Event → Option Call
  | .exec q (.done _) => (w.procs q).sent.head?.filter fun c => (c.txn.run w.db).2.err.isNone
  | _ => none

/- The handler whose promise a step resolves, with its response. -/
def World.resolves (w : World) (e : Event) : Option Handler :=
  (inputOf w e).bind fun pi => (w.procs pi.1).answers pi.2

def resolutions (tr : List (World × Event)) : List Handler :=
  tr.filterMap fun a => a.1.resolves a.2

/- What the step resolves is a request on this connection of this process. -/
def World.ResolvesFor (w : World) (p : Pid) (s : Str) (e : Event) : Prop :=
  ∀ answer, w.resolves e = some answer → (inputOf w e).map Prod.fst = some p ∧ answer.socketId = s

/- The calls of a room request with the base response `hd`. -/
inductive Serves (hd : Handler) : Route → Call → Prop
  | createIncr (user : User) : Serves hd .roomCreate (.addRoomIncr (some user) hd)
  | createSet (n : ℕ) : Serves hd .roomCreate (.addRoomSet n hd)
  | closeKeys (user : User) (roomId : JsVal) :
      Serves hd .roomClose (.delRoomKeys (some user) roomId hd)
  | closeExec (roomId : JsVal) : Serves hd .roomClose (.delRoomExec roomId hd)
  | joinKeys (user : User) (roomId : JsVal) :
      Serves hd .roomIn (.addRoomUserKeys (some user) roomId hd)
  | joinMembers (user : User) (roomId : JsVal) :
      Serves hd .roomIn (.addRoomUserMembers user roomId hd)
  | joinAdd (user : User) (roomId : JsVal) : Serves hd .roomIn (.addRoomUserAdd user roomId hd)
  | leaveMembers (user : User) (roomId : JsVal) :
      Serves hd .roomOut (.delRoomUserMembers (some user) roomId (some hd))
  | leaveRem (user : User) (roomId : JsVal) :
      Serves hd .roomOut (.delRoomUserRem user roomId (some hd))
  | chatKeys (user : User) (roomId msg : JsVal) :
      Serves hd .sendLiveChat (.broadcastKeys (some user) roomId msg hd)
  | chatMembers (user : User) (roomId msg : JsVal) :
      Serves hd .sendLiveChat (.broadcastMembers (some user) roomId msg hd)

/- How many calls of its request come before a call. -/
def Call.stage : Call → ℕ
  | .addRoomSet _ _ | .delRoomExec _ _ | .addRoomUserMembers _ _ _ => 1
  | .delRoomUserRem _ _ _ | .broadcastMembers _ _ _ _ => 1
  | .addRoomUserAdd _ _ _ => 2
  | _ => 0

section

variable {hd : Handler} {route : Route} {c : Call}

theorem Serves.handler (h : Serves hd route c) : c.handler = some hd := by
  cases h with
  | _ => rfl

theorem Serves.not_background (h : Serves hd route c) : c.background = false := by
  cases h with
  | _ => rfl

theorem Serves.stage_lt (h : Serves hd route c) : c.stage < 3 := by
  cases h with
  | _ => simp [Call.stage]

theorem background_handler (h : c.background = true) : c.handler = none := by
  cases c with
  | lookupKeys | lookupHash | logoutDel => rfl
  | _ => cases h

theorem background_not_final (h : c.background = true) : c.finalOf route = false := by
  cases c with
  | lookupKeys | lookupHash | logoutDel =>
    cases route with
    | _ => rfl
  | _ => cases h

theorem fanOut_foreground (notice : Notice) (users : List Str) :
    (fanOut notice users).filter (fun c => !c.background) = [] := by
  rw [List.filter_eq_nil_iff]
  intro c hc
  obtain ⟨u, _, rfl⟩ := List.mem_map.mp hc
  simp [Call.background, LookupFor.background]

theorem fanOut_next (notice : Notice) (users : List Str) (hc : c.background = false) :
    (fanOut notice users ++ [c]).filter (fun c => !c.background) = [c] := by
  rw [List.filter_append, fanOut_foreground, List.nil_append]
  simp [hc]

theorem Handler.result_errno (h : Handler) (data : RespData) (err : Option Str)
    (h0 : h.resData.errno = 0) : (h.result data err).resData.errno = 0 ↔ err = none := by
  cases err with
  | none => simpa [Handler.result, Handler.withData] using h0
  | some err => simp [Handler.result, Handler.withError]

variable (hd route) in
/- What the callback of a call of the request does: it issues the next call, or
it resolves the handler's promise. -/
inductive Continues (c : Call) (r : Store.Reply) (answer : Option Handler) (news : List Call) : Prop
  | next (d : Call) (serves : Serves hd route d) (stage : d.stage = c.stage + 1)
      (early : c.finalOf route = false) (pending : answer = none) (issued : news = [d])
  | ends (data : RespData) (err : Option Str) (resolved : answer = some (hd.result data err))
      (succeeds : err = none ↔ c.finalOf route = true ∧ r.err = none) (issued : news = [])

theorem Serves.continues (hc : Serves hd route c) (p : Pid) (x y : Proc) (r : Store.Reply) :
    Continues hd route c r (y.replyAnswer c r)
      ((x.replyCalls p c r).filter fun c => !c.background) := by
  cases hc with
  | createIncr user =>
    cases r with
    | error err => exact .ends .empty (some err) rfl (by simp [Call.finalOf]) rfl
    | int res => exact .next _ (.createSet (parseInt res)) rfl rfl rfl rfl
    | _ => exact .next _ (.createSet 0) rfl rfl rfl rfl
  | createSet n =>
    refine .ends (.room (.num n)) r.err rfl (by simp [Call.finalOf]) ?_
    cases r with
    | _ => rfl
  | closeKeys user roomId =>
    cases r with
    | array ks =>
      cases ks with
      | nil => exact .ends _ _ rfl (by simp [Call.finalOf]) rfl
      | cons k ks => exact .next _ (.closeExec roomId) rfl rfl rfl rfl
    | _ => exact .ends _ _ rfl (by simp [Call.finalOf]) rfl
  | closeExec roomId =>
    refine .ends (.room roomId) r.err rfl (by simp [Call.finalOf]) ?_
    rw [delRoomExec_calls, fanOut_foreground]
  | joinKeys user roomId =>
    cases r with
    | array ks =>
      cases ks with
      | nil => exact .ends _ _ rfl (by simp [Call.finalOf]) rfl
      | cons k ks => exact .next _ (.joinMembers user roomId) rfl rfl rfl rfl
    | _ => exact .ends _ _ rfl (by simp [Call.finalOf]) rfl
  | joinMembers user roomId =>
    refine .next _ (.joinAdd user roomId) rfl rfl ?_ ?_
    · cases r with
      | _ => rfl
    · cases r with
      | array res => exact fanOut_next _ _ rfl
      | _ => rfl
  | joinAdd user roomId =>
    refine .ends (.room roomId) r.err rfl (by simp [Call.finalOf]) ?_
    cases r with
    | _ => rfl
  | leaveMembers user roomId =>
    refine .next _ (.leaveRem user roomId) rfl rfl ?_ ?_
    · cases r with
      | _ => rfl
    · cases r with
      | array res => exact fanOut_next _ _ rfl
      | _ => rfl
  | leaveRem user roomId =>
    refine .ends (.room roomId) r.err rfl (by simp [Call.finalOf]) ?_
    cases r with
    | _ => rfl
  | chatKeys user roomId msg =>
    cases r with
    | array ks =>
      cases ks with
      | nil => exact .ends _ _ rfl (by simp [Call.finalOf]) rfl
      | cons k ks => exact .next _ (.chatMembers user roomId msg) rfl rfl rfl rfl
    | _ => exact .ends _ _ rfl (by simp [Call.finalOf]) rfl
  | chatMembers user roomId msg =>
    refine .ends .empty r.err rfl (by simp [Call.finalOf]) ?_
    cases r with
    | array res => exact fanOut_foreground _ _
    | _ => rfl

theorem Serves.issued (hc : Serves hd route c) {p : Pid} {x : Proc} {r : Store.Reply} {d : Call}
    (hm : d ∈ x.replyCalls p c r) : d.background = true ∨ Serves hd route d := by
  by_cases hb : d.background = true
  · exact Or.inl hb
  · have hnew : d ∈ (x.replyCalls p c r).filter fun c => !c.background :=
      List.mem_filter.mpr ⟨hm, by simpa using hb⟩
    cases hc.continues p x x r with
    | next d' serves stage early pending issued =>
      rw [issued] at hnew
      rw [List.mem_singleton.mp hnew]
      exact Or.inr serves
    | ends data err resolved succeeds issued =>
      rw [issued] at hnew
      cases hnew

end

/-! ### What the commands leave alone -/

/- Room keys, member sets and `ctx.roomId` are as before. -/
structure RoomsKept (w v : World) : Prop where
  rooms : ∀ t, v.db.get (roomPattern t) = w.db.get (roomPattern t)
  members : ∀ t, v.db.get (memberPattern t) = w.db.get (memberPattern t)
  ctx : ∀ q t, (v.procs q).ctxRoomId t = (w.procs q).ctxRoomId t

theorem RoomsKept.trans {u w v : World} (h : RoomsKept u w) (k : RoomsKept w v) :
    RoomsKept u v where
  rooms t := (k.rooms t).trans (h.rooms t)
  members t := (k.members t).trans (h.members t)
  ctx q t := (k.ctx q t).trans (h.ctx q t)

theorem Writes.room {c : Call} {t : Str} (h : Writes c (roomPattern t)) : c.writesRooms = true := by
  cases h with
  | login l k hk => exact absurd hk.symm (uniquePattern_ne_roomPattern _ _ _)
  | logout user k hk => exact absurd hk.symm (uniquePattern_ne_roomPattern _ _ _)
  | count user hd k hk => exact absurd hk (roomPattern_ne_maxId _)
  | _ => rfl

theorem Writes.member {c : Call} {t : Str} (h : Writes c (memberPattern t)) :
    c.writesRooms = true := by
  cases h with
  | login l k hk => exact absurd hk.symm (uniquePattern_ne_memberPattern _ _ _)
  | logout user k hk => exact absurd hk.symm (uniquePattern_ne_memberPattern _ _ _)
  | count user hd k hk => exact absurd hk (memberPattern_ne_maxId _)
  | _ => rfl

theorem inOrder_err {r r' : Store.Reply} {order : List Str} (h : r.inOrder order = some r') :
    r'.err = r.err := by
  cases r with
  | exec rs =>
    obtain ⟨rs', _, rfl⟩ := Option.map_eq_some_iff.mp h
    rfl
  | array xs =>
    rw [(Store.inOrder_array order xs r' h).1]
    rfl
  | _ =>
    cases h
    rfl

section

variable {w v : World} {e : Event} {p q : Pid} {c : Call} {r : Store.Reply}

theorem Executed.succeeds (h : Executed w v e q c r) :
    w.succeeds e = if r.err = none then some c else none := by
  rcases h.db with ⟨order, rfl, _, hr⟩ | ⟨message, rfl, _, rfl⟩
  · rw [inOrder_err hr]
    simp only [World.succeeds, h.sent, List.head?_cons, Option.filter_some, Option.isNone_iff_eq_none]
  · rfl

/-- A call that writes no rooms, or is answered with an error, keeps them. -/
theorem Executed.roomsKept (h : Executed w v e q c r) (hc : c.writesRooms = true → r.err ≠ none) :
    RoomsKept w v := by
  have same : ∀ k, (Writes c k → c.writesRooms = true) → v.db.get k = w.db.get k := by
    intro k hk
    rcases h.db with ⟨order, _, hdb, hr⟩ | ⟨message, _, hdb, _⟩
    · rw [hdb]
      rcases run_cases c w.db k with hsame | hwr
      · exact hsame
      · obtain ⟨message, herr⟩ := Option.ne_none_iff_exists'.mp (hc (hk hwr))
        rw [inOrder_err hr] at herr
        have hrep : (c.txn.run w.db).2 = .error message := by
          cases hrun : (c.txn.run w.db).2 with
          | error m =>
            rw [hrun] at herr
            cases herr
            rfl
          | _ =>
            rw [hrun] at herr
            cases herr
        rw [Store.txn_error _ _ _ hrep]
    · rw [hdb]
  exact ⟨fun t => same _ Writes.room, fun t => same _ Writes.member, h.ctx⟩

variable {i : Input} {x : Proc}

theorem Handled.roomsKept (h : Handled w v e q i x) (hw : WF w)
    (hi : ∀ t roomId, ¬ NotesRoom i t roomId) : RoomsKept w v where
  rooms t := by rw [h.db]
  members t := by rw [h.db]
  ctx q' t := by
    by_cases hq : q' = q
    · subst hq
      rcases h.ctx_cases hw t with hsame | hnotes
      · exact hsame
      · exact absurd hnotes (hi _ _)
    · exact h.ctx_other hq

theorem Input.background.no_notes (hi : i.background) (t : Str) (roomId : JsVal) :
    ¬ NotesRoom i t roomId := by
  rintro (⟨user, hd, r, rfl, _⟩ | ⟨user, room, hd, r, rfl, _⟩)
  · cases hi
  · cases hi

theorem Input.background.no_answer (hi : i.background) : x.answers i = none := by
  cases i with
  | reply c r =>
    cases c with
    | lookupKeys | lookupHash | logoutDel => rfl
    | _ => cases hi
  | packet packet => rfl
  | _ => cases hi

end

/-! ### The chain of calls -/

/- The step executes a call of a request or runs its callback. -/
def World.moves (w : World) : Event → Bool
  | .exec q _ => (w.procs q).sent.head?.any fun c => c.handler.isSome
  | .reply q => (w.procs q).answered.head?.any fun cr => cr.1.handler.isSome
  | _ => false

def moves (tr : List (World × Event)) : ℕ := tr.countP fun a => a.1.moves a.2

/- The final command was issued and succeeded. -/
def FinalSucceeded (route : Route) (tr : List (World × Event)) : Prop :=
  ∃ a ∈ tr, ∃ c, a.1.succeeds a.2 = some c ∧ c.finalOf route = true

/- How far the request has got: its one call in flight, or its response. -/
inductive Phase (hd : Handler) (route : Route) (won : Prop) :
    List (Call × Option Store.Reply) → List Handler → ℕ → Prop
  | sent (c : Call) (serves : Serves hd route c) (early : ¬ won) :
      Phase hd route won [(c, none)] [] (2 * c.stage)
  | answered (c : Call) (r : Store.Reply) (serves : Serves hd route c)
      (final : won ↔ c.finalOf route = true ∧ r.err = none) :
      Phase hd route won [(c, some r)] [] (2 * c.stage + 1)
  | resolved (answer : Handler) (n : ℕ) (request : answer.socketId = hd.socketId ∧
        answer.resData.id = hd.resData.id ∧ answer.resData.route = hd.resData.route)
      (errno : answer.resData.errno = 0 ↔ won) : Phase hd route won [] [answer] n

structure Processing (p : Pid) (hd : Handler) (route : Route) (w : World)
    (tr : List (World × Event)) (v : World) : Prop where
  wf : WF v
  calls : ∀ q, ∀ c ∈ (v.procs q).calls, c.background = true ∨ q = p ∧ Serves hd route c
  phase : Phase hd route (FinalSucceeded route tr) (v.procs p).ops (resolutions tr) (moves tr)
  kept : ¬ FinalSucceeded route tr → RoomsKept w v

section

variable {hd : Handler} {route : Route} {won : Prop} {c : Call} {r : Store.Reply}
  {ops : List (Call × Option Store.Reply)} {rs : List Handler} {n : ℕ}

theorem Phase.count (h : Phase hd route won ops rs n) : rs.length + ops.length = 1 := by
  cases h with
  | _ => rfl

theorem Phase.short (h : Phase hd route won ops rs n) : ops.length ≤ 1 := by
  have hcount := h.count
  omega

theorem Phase.once (h : Phase hd route won ops rs n) (hrs : rs ≠ []) : rs.length = 1 := by
  have hcount := h.count
  have hpos := List.length_pos_iff.mpr hrs
  omega

theorem Phase.of_sent (h : Phase hd route won [(c, none)] rs n) :
    ¬ won ∧ rs = [] ∧ n = 2 * c.stage := by
  cases h with
  | sent c serves early => exact ⟨early, rfl, rfl⟩

theorem Phase.of_answered (h : Phase hd route won [(c, some r)] rs n) :
    (won ↔ c.finalOf route = true ∧ r.err = none) ∧ rs = [] ∧ n = 2 * c.stage + 1 := by
  cases h with
  | answered c r serves final => exact ⟨final, rfl, rfl⟩

theorem resolutions_snoc (tr : List (World × Event)) (v : World) (e : Event) :
    resolutions (tr ++ [(v, e)]) = resolutions tr ++ (v.resolves e).toList := by
  rw [resolutions, List.filterMap_append]
  rfl

theorem moves_snoc (tr : List (World × Event)) (v : World) (e : Event) :
    moves (tr ++ [(v, e)]) = moves tr + if v.moves e = true then 1 else 0 := by
  simp [moves, List.countP_append, List.countP_cons]

theorem finalSucceeded_snoc (tr : List (World × Event)) (v : World) (e : Event) :
    FinalSucceeded route (tr ++ [(v, e)]) ↔ FinalSucceeded route tr ∨
      ∃ c, v.succeeds e = some c ∧ c.finalOf route = true := by
  simp only [FinalSucceeded, List.mem_append, List.mem_singleton, or_and_right, exists_or,
    exists_eq_left]

theorem Serves.writesRooms (h : Serves hd route c) (hc : c.writesRooms = true) :
    c.finalOf route = true := by
  cases h with
  | createSet | closeExec | joinAdd | leaveRem => rfl
  | _ => cases hc

theorem background_writesRooms (h : c.background = true) : c.writesRooms = false := by
  cases c with
  | lookupKeys | lookupHash | logoutDel => rfl
  | _ => cases h

theorem Serves.notes {t : Str} {roomId : JsVal} (h : Serves hd route c)
    (hn : NotesRoom (.reply c r) t roomId) : c.finalOf route = true ∧ r.err = none := by
  have noError : (∀ err, r ≠ .error err) → r.err = none := by
    intro hr
    cases r with
    | error err => exact absurd rfl (hr err)
    | _ => rfl
  rcases hn with ⟨user, hd', r', hi, hr, _⟩ | ⟨user, room, hd', r', hi, hr, _⟩
  · cases hi
    cases h with
    | joinAdd => exact ⟨rfl, noError hr⟩
  · cases hi
    cases h with
    | leaveRem => exact ⟨rfl, noError hr⟩

end

section

variable {p q : Pid} {hd : Handler} {route : Route} {w v v' : World} {tr : List (World × Event)}
  {e : Event} {c : Call} {r : Store.Reply}

theorem Executed.resolves (h : Executed v v' e q c r) : v.resolves e = none := by
  rcases h.db with ⟨order, rfl, _⟩ | ⟨message, rfl, _⟩
  · rfl
  · rfl

theorem Executed.moves (h : Executed v v' e q c r) : v.moves e = c.handler.isSome := by
  rcases h.db with ⟨order, rfl, _⟩ | ⟨message, rfl, _⟩
  · simp [World.moves, h.sent]
  · simp [World.moves, h.sent]

theorem Executed.finalSucceeded (h : Executed v v' e q c r) :
    FinalSucceeded route (tr ++ [(v, e)]) ↔
      FinalSucceeded route tr ∨ (c.finalOf route = true ∧ r.err = none) := by
  rw [finalSucceeded_snoc, h.succeeds]
  by_cases hr : r.err = none
  · simp [hr]
  · simp [hr]

/-- Executing the call of the request moves it on; executing another one
changes nothing about it. -/
theorem Processing.executed (hp : Processing p hd route w tr v) (h : Executed v v' e q c r) :
    Processing p hd route w (tr ++ [(v, e)]) v' := by
  have hcalls : ∀ t, ∀ d ∈ (v'.procs t).calls, d.background = true ∨ t = p ∧ Serves hd route d := by
    intro t d hm
    rw [h.calls] at hm
    exact hp.calls t d hm
  have hlost : ¬ FinalSucceeded route (tr ++ [(v, e)]) → ¬ FinalSucceeded route tr := by
    intro hn hf
    exact hn (h.finalSucceeded.mpr (Or.inl hf))
  rcases hp.calls q c h.mem_calls with hb | ⟨rfl, hs⟩
  · have hfin : FinalSucceeded route (tr ++ [(v, e)]) ↔ FinalSucceeded route tr := by
      rw [h.finalSucceeded, background_not_final hb]
      simp
    refine ⟨hp.wf.executed h, hcalls, ?_, ?_⟩
    · rw [hfin, h.ops_background hb, resolutions_snoc, h.resolves, moves_snoc, h.moves,
        background_handler hb]
      simpa using hp.phase
    · intro hn
      refine (hp.kept (hlost hn)).trans (h.roomsKept ?_)
      rw [background_writesRooms hb]
      exact nofun
  · obtain ⟨hbefore, hafter⟩ := h.ops_moves hs.not_background hp.phase.short
    have hphase := hp.phase
    rw [hbefore] at hphase
    obtain ⟨hearly, hrs, hn⟩ := hphase.of_sent
    refine ⟨hp.wf.executed h, hcalls, ?_, ?_⟩
    · rw [hafter, resolutions_snoc, h.resolves, hrs, moves_snoc, hn, h.moves, hs.handler]
      refine .answered c r hs ?_
      rw [h.finalSucceeded]
      exact or_iff_right hearly
    · intro hn
      refine (hp.kept hearly).trans (h.roomsKept ?_)
      intro hwrites hr
      exact hn (h.finalSucceeded.mpr (Or.inr ⟨hs.writesRooms hwrites, hr⟩))

variable {i : Input} {x : Proc}

theorem Handled.resolves (h : Handled v v' e q i x) : v.resolves e = (v.procs q).answers i := by
  rw [World.resolves, h.input]
  rfl

/-- What a step resolves for a connection is written to it as long as it is open. -/
theorem step_responses {s : Str} (hv : WF v) (hs : step v e = some v')
    (hopen : (v.procs p).ws s = some .opened) (hours : v.ResolvesFor p s e) :
    (v'.procs p).responses s = (v.procs p).responses s ++ (v.resolves e).toList.map Handler.resData := by
  rcases step_cases v v' e hs with ⟨q, c, r, h⟩ | ⟨q, i, x, h⟩
  · rw [h.responses, h.resolves]
    exact (List.append_nil _).symm
  · by_cases hq : q = p
    · subst hq
      rw [h.responses hv, h.answers, ← h.resolves]
      cases ha : v.resolves e with
      | none => rfl
      | some answer =>
        have hws : x.ws s = some .opened := by
          rw [Proc.ws, h.conns]
          exact hopen
        have hto := (hours answer ha).2
        simp [Proc.written, hto, hws]
    · have hnone : v.resolves e = none := by
        rw [Option.eq_none_iff_forall_ne_some]
        intro answer ha
        have hon := (hours answer ha).1
        rw [h.input] at hon
        exact hq (Option.some.inj hon)
      rw [Proc.responses, Proc.responses, (h.other_conns p (Ne.symm hq)).1, hnone]
      exact (List.append_nil _).symm

/-- The responses of a run on a connection that stays open are what it resolves. -/
theorem path_responses {s : Str} (hv : WF v) (hrun : Run.Path step v tr v')
    (hopen : ∀ a ∈ tr, (a.1.procs p).ws s = some .opened) (hours : ∀ a ∈ tr, a.1.ResolvesFor p s a.2) :
    (v'.procs p).responses s = (v.procs p).responses s ++ (resolutions tr).map Handler.resData := by
  induction hrun with
  | nil => exact (List.append_nil _).symm
  | @snoc tr u u' e hpath hs ih =>
    have hbefore := ih (fun a ha => hopen a (List.mem_append_left _ ha))
      fun a ha => hours a (List.mem_append_left _ ha)
    have hu : WF u := hpath.invariant (fun _ u => WF u) hv fun _ _ _ _ hw => hw.step
    have hlast : (u, e) ∈ tr ++ [(u, e)] := List.mem_append_right _ (List.mem_singleton_self _)
    rw [step_responses hu hs (hopen _ hlast) (hours _ hlast), hbefore, resolutions_snoc, List.map_append,
      List.append_assoc]

theorem message_resolvesFor {s : Str} {req : Request} {now : ℕ} (hs : step v (.message p s req now) = some v') :
    v.ResolvesFor p s (.message p s req now) := by
  intro answer ha
  obtain ⟨q, i, x, h⟩ := step_handled hs rfl
  obtain ⟨rfl, rfl⟩ := inputOf_message h.input
  refine ⟨by rw [h.input]; rfl, ?_⟩
  rw [h.resolves, Proc.answers] at ha
  split at ha
  · exact (requestAnswer_request ha).1
  · cases ha

theorem Handled.succeeds (h : Handled v v' e q i x) : v.succeeds e = none := by
  cases e with
  | exec t outcome => cases h.input
  | _ => rfl

theorem Handled.finalSucceeded (h : Handled v v' e q i x) :
    FinalSucceeded route (tr ++ [(v, e)]) ↔ FinalSucceeded route tr := by
  rw [finalSucceeded_snoc, h.succeeds]
  simp

theorem Handled.moves_reply (h : Handled v v' e q (.reply c r) x) :
    v.moves e = c.handler.isSome := by
  have he : e = .reply q := h.arrives.1
  subst he
  simp [World.moves, h.answered, Input.replied]

theorem Handled.moves_background (h : Handled v v' e q i x) (hi : i.background) :
    v.moves e = false := by
  cases i with
  | reply c r =>
    rw [h.moves_reply, background_handler hi]
    rfl
  | packet packet =>
    obtain ⟨_, t, n, rfl, _⟩ := h.arrives
    rfl
  | _ => cases hi

theorem Handled.server_internal (h : Handled v v' e q i x) (he : e.server = true) :
    e.internal = true := by
  cases e with
  | exec t outcome => cases h.input
  | reply | deliver => rfl
  | _ => cases he

/-- In the background nothing happens to the request. -/
theorem Processing.keep (hp : Processing p hd route w tr v) (h : Handled v v' e q i x)
    (hi : i.background) : Processing p hd route w (tr ++ [(v, e)]) v' := by
  refine ⟨hp.wf.handled h, ?_, ?_, ?_⟩
  · intro t d hm
    rcases h.call_cases hp.wf t d hm with hold | ⟨_, ho⟩
    · exact hp.calls t d hold
    · exact Or.inl (ho.background hi)
  · rw [h.finalSucceeded, h.ops_background hp.wf hi, resolutions_snoc, h.resolves, hi.no_answer,
      moves_snoc, h.moves_background hi]
    simpa using hp.phase
  · intro hn
    rw [h.finalSucceeded] at hn
    exact (hp.kept hn).trans (h.roomsKept hp.wf hi.no_notes)

/-- The callback of the call of the request issues the next one or resolves. -/
theorem Processing.callback (hp : Processing p hd route w tr v) (h0 : hd.resData.errno = 0)
    (h : Handled v v' e p (.reply c r) x) (hs : Serves hd route c) :
    Processing p hd route w (tr ++ [(v, e)]) v' := by
  obtain ⟨hbefore, hafter⟩ := h.ops_issued hp.wf
  have hphase := hp.phase
  have hshort := hp.phase.short
  simp only [hbefore, Input.replied, List.filter_cons, hs.not_background, Bool.not_false, if_true,
    List.filter_nil, List.map_cons, List.map_nil, List.cons_append, List.nil_append] at hphase hshort
  -- the answered call was the only one, so the next one is all that is in flight
  have hx : x.ops = [] := by
    simpa using hshort
  rw [hx] at hphase hafter
  obtain ⟨hwon, hrs, hn⟩ := hphase.of_answered
  obtain ⟨hcbefore, hcafter⟩ := h.calls_issued hp.wf
  refine ⟨hp.wf.handled h, ?_, ?_, ?_⟩
  · intro t d hm
    by_cases ht : t = p
    · subst ht
      rw [hcafter] at hm
      rcases List.mem_append.mp hm with hm | hm
      · refine hp.calls t d ?_
        rw [hcbefore]
        exact List.mem_append_right _ hm
      · exact (hs.issued hm).imp id fun hserves => ⟨rfl, hserves⟩
    · rcases h.call_cases hp.wf t d hm with hold | ⟨ht', _⟩
      · exact hp.calls t d hold
      · exact absurd ht' ht
  · rw [h.finalSucceeded, hafter, resolutions_snoc, h.resolves, hrs, moves_snoc, hn, h.moves_reply,
      hs.handler]
    show Phase hd route _ (((x.replyCalls p c r).filter fun c => !c.background).map _)
      ([] ++ ((v.procs p).replyAnswer c r).toList) _
    cases hs.continues p x (v.procs p) r with
    | next d serves stage early pending issued =>
      have hlost : ¬ FinalSucceeded route tr := by
        rw [hwon, early]
        simp
      have hmoves : 2 * c.stage + 1 + 1 = 2 * d.stage := by omega
      rw [issued, pending]
      show Phase hd route _ [(d, none)] [] (2 * c.stage + 1 + 1)
      rw [hmoves]
      exact .sent d serves hlost
    | ends data err resolved succeeds issued =>
      rw [issued, resolved]
      refine .resolved _ _ (hd.result_request data err) ?_
      rw [hd.result_errno data err h0, hwon, succeeds]
  · intro hnot
    rw [h.finalSucceeded] at hnot
    refine (hp.kept hnot).trans (h.roomsKept hp.wf ?_)
    intro t roomId hnotes
    exact hnot (hwon.mpr (hs.notes hnotes))

theorem Processing.handled (hp : Processing p hd route w tr v) (h0 : hd.resData.errno = 0)
    (he : e.server = true) (h : Handled v v' e q i x) :
    Processing p hd route w (tr ++ [(v, e)]) v' := by
  rcases h.internal_input (h.server_internal he) with hi | ⟨c, r, rfl⟩
  · exact hp.keep h hi
  · rcases hp.calls q c (h.reply_call rfl) with hb | ⟨rfl, hs⟩
    · exact hp.keep h hb
    · exact hp.callback h0 h hs

theorem Processing.after (hp : Processing p hd route w tr v) (h0 : hd.resData.errno = 0)
    (he : e.server = true) (hs : step v e = some v') :
    Processing p hd route w (tr ++ [(v, e)]) v' := by
  rcases step_cases v v' e hs with ⟨q, c, r, h⟩ | ⟨q, i, x, h⟩
  · exact hp.executed h
  · exact hp.handled h0 he h

/-- Only the process of the request resolves it, and for its connection. -/
theorem Processing.resolvesFor (hp : Processing p hd route w tr v) (he : e.server = true)
    (hs : step v e = some v') : v.ResolvesFor p hd.socketId e := by
  intro answer ha
  rcases step_cases v v' e hs with ⟨q, c, r, h⟩ | ⟨q, i, x, h⟩
  · rw [h.resolves] at ha
    cases ha
  · have hbusy : ¬ i.background := by
      intro hi
      rw [h.resolves, hi.no_answer] at ha
      cases ha
    obtain ⟨c, r, rfl⟩ := (h.internal_input (h.server_internal he)).resolve_left hbusy
    obtain ⟨rfl, hc⟩ := (hp.calls q c (h.reply_call rfl)).resolve_left hbusy
    refine ⟨by rw [h.input]; rfl, ?_⟩
    rw [h.resolves] at ha
    cases hc.continues q x (v.procs q) r with
    | next d serves stage early pending issued =>
      rw [Proc.answers, pending] at ha
      cases ha
    | ends data err resolved succeeds issued =>
      rw [Proc.answers, resolved] at ha
      cases ha
      exact (hd.result_request data err).1

end

/-! ### The request arrives -/

theorem WF.alone {w : World} (hw : WF w) : WF w.alone where
  ids := hw.ids
  shape := hw.shape
  owner := hw.owner
  users := hw.users
  calls := by
    intro q c hc
    cases hc
  replies := by
    intro q c r hc
    cases hc
  db := hw.db

/- The base response on a connection that has logged in. -/
def loggedRespond (s : Str) (req : Request) (route : Route) : Handler :=
  ⟨s, req.id, route, 0, [], .empty⟩

section

variable {p : Pid} {s : Str} {req : Request} {now : ℕ} {route : Route} {w m : World} {user : User}

theorem getBaseRespond_logged {x : Proc} (hu : x.userList.get s = some user) :
    x.getBaseRespond s req.id route = loggedRespond s req route := by
  simp only [Proc.getBaseRespond, Proc.getUserWithSocket, hu]
  rfl

/-- A room request starts its operation, or is turned down when the connection
is in no room. -/
theorem request_starts {x y : Proc} (p : Pid) (req : Request) (now : ℕ)
    (hroom : route.isRoomRequest = true) (hx : x.userList.get s = some user)
    (hy : y.userList.get s = some user) (hctx : x.ctxRoomId s = y.ctxRoomId s) :
    (∃ d, Serves (loggedRespond s req route) route d ∧ d.stage = 0 ∧
      y.requestAnswer s req route = none ∧ x.requestCalls p s req now route = [d]) ∨
    (y.requestAnswer s req route = some ((loggedRespond s req route).withError 16105 notInRoom) ∧
      x.requestCalls p s req now route = []) := by
  have hxu : x.getUserWithSocket s = some user := hx
  cases route with
  | roomCreate =>
    refine Or.inl ⟨_, .createIncr user, rfl, rfl, ?_⟩
    simp only [Proc.requestCalls, hxu, getBaseRespond_logged hx]
  | roomClose =>
    refine Or.inl ⟨_, .closeKeys user req.roomId, rfl, rfl, ?_⟩
    simp only [Proc.requestCalls, hxu, getBaseRespond_logged hx]
  | roomIn =>
    refine Or.inl ⟨_, .joinKeys user req.roomId, rfl, rfl, ?_⟩
    simp only [Proc.requestCalls, hxu, getBaseRespond_logged hx]
  | roomOut =>
    simp only [Proc.requestAnswer, Proc.requestCalls, hctx, hxu, getBaseRespond_logged hx,
      getBaseRespond_logged hy]
    cases (y.ctxRoomId s).isNull with
    | true => exact Or.inr ⟨rfl, rfl⟩
    | false => exact Or.inl ⟨_, .leaveMembers user req.roomId, rfl, rfl, rfl⟩
  | sendLiveChat =>
    simp only [Proc.requestAnswer, Proc.requestCalls, hctx, hxu, getBaseRespond_logged hx,
      getBaseRespond_logged hy]
    cases (y.ctxRoomId s).isNull with
    | true => exact Or.inr ⟨rfl, rfl⟩
    | false => exact Or.inl ⟨_, .chatKeys user (y.ctxRoomId s) req.msg, rfl, rfl, rfl⟩
  | _ => cases hroom

/-- With nothing else in flight, what is in flight afterwards was just issued. -/
theorem Handled.alone_calls {e : Event} {i : Input} {x : Proc} (h : Handled w.alone m e p i x)
    (hw : WF w) : (m.procs p).ops =
        ((x.issued p i).filter fun c => !c.background).map (fun c => (c, none)) ∧
      (m.procs p).calls = x.issued p i ∧ ∀ t, t ≠ p → (m.procs t).calls = [] := by
  obtain ⟨hbefore, hafter⟩ := h.ops_issued hw.alone
  obtain ⟨hcbefore, hcafter⟩ := h.calls_issued hw.alone
  have hxops : x.ops = [] := (List.append_eq_nil_iff.mp hbefore.symm).2
  have hxcalls : x.calls = [] := (List.append_eq_nil_iff.mp hcbefore.symm).2
  rw [hxops, List.nil_append] at hafter
  rw [hxcalls, List.nil_append] at hcafter
  refine ⟨hafter, hcafter, ?_⟩
  intro t ht
  obtain ⟨outbox, hout, _⟩ := h.others t ht
  rw [hout]
  rfl

theorem message_notes {t : Str} {roomId : JsVal} : ¬ NotesRoom (.message s req now) t roomId := by
  rintro (⟨_, _, _, hi, _⟩ | ⟨_, _, _, _, hi, _⟩)
  · cases hi
  · cases hi

theorem Processing.start (hw : WF w) (hu : (w.procs p).userList.get s = some user)
    (hroute : getRouterByName req.route = some (.handler route))
    (hroom : route.isRoomRequest = true) (hs : step w.alone (.message p s req now) = some m) :
    Processing p (loggedRespond s req route) route w [(w.alone, .message p s req now)] m := by
  obtain ⟨q, i, x, h⟩ := step_handled hs rfl
  obtain ⟨rfl, rfl⟩ := inputOf_message h.input
  have hlost : ¬ FinalSucceeded route [(w.alone, .message p s req now)] := by
    rw [← List.nil_append [(w.alone, _)], h.finalSucceeded]
    rintro ⟨a, ha, _⟩
    cases ha
  have hres : resolutions [(w.alone, .message p s req now)] =
      ((w.alone.procs p).requestAnswer s req route).toList := by
    rw [← List.nil_append [(w.alone, _)], resolutions_snoc, h.resolves]
    simp only [Proc.answers, hroute]
    rfl
  have hmoves : moves [(w.alone, .message p s req now)] = 0 := rfl
  have hissued : x.issued p (.message s req now) = x.requestCalls p s req now route := by
    simp only [Proc.issued, hroute]
  have hx : x.userList.get s = some user := by
    rw [h.userList]
    exact hu
  have hstarts := request_starts p req now hroom hx (y := w.alone.procs p) hu (h.ctx_eq s)
  have halone : RoomsKept w w.alone := ⟨fun _ => rfl, fun _ => rfl, fun _ _ => rfl⟩
  obtain ⟨hops, hcalls, hother⟩ := h.alone_calls hw
  rw [hissued] at hops hcalls
  refine ⟨hw.alone.handled h, ?_, ?_, fun _ =>
    halone.trans (h.roomsKept hw.alone fun _ _ => message_notes)⟩
  · intro t d hm
    by_cases ht : t = p
    · subst ht
      rw [hcalls] at hm
      rcases hstarts with ⟨d', serves, _, _, hnew⟩ | ⟨_, hnew⟩
      · rw [hnew] at hm
        rw [List.mem_singleton.mp hm]
        exact Or.inr ⟨rfl, serves⟩
      · rw [hnew] at hm
        cases hm
    · rw [hother t ht] at hm
      cases hm
  · rw [hops, hres, hmoves]
    rcases hstarts with ⟨d, serves, stage, hnone, hnew⟩ | ⟨hsome, hnew⟩
    · rw [hnone, hnew, List.filter_cons, serves.not_background, ← Nat.mul_zero 2, ← stage]
      exact .sent d serves hlost
    · rw [hsome, hnew]
      exact .resolved _ _ ⟨rfl, rfl, rfl⟩ (iff_of_false (by simp [Handler.withError]) hlost)

end

/-! ### The request gets through -/

/- A room request on its own, and what the servers have done since. -/
structure Handling (p : Pid) (s : Str) (req : Request) (now : ℕ) (w : World)
    (tr : List (World × Event)) (v : World) : Prop where
  run : ∃ m, step w.alone (.message p s req now) = some m ∧ Run.Path step m tr v
  server : ∀ a ∈ tr, a.2.server = true

/- All steps, the request included. -/
def requestSteps (p : Pid) (s : Str) (req : Request) (now : ℕ) (w : World)
    (tr : List (World × Event)) : List (World × Event) :=
  (w.alone, .message p s req now) :: tr

theorem Handling.snoc {p : Pid} {s : Str} {req : Request} {now : ℕ} {w v v' : World} {e : Event}
    {tr : List (World × Event)} (h : Handling p s req now w tr v) (he : e.server = true)
    (hs : step v e = some v') : Handling p s req now w (tr ++ [(v, e)]) v' := by
  obtain ⟨m, hm, hpath⟩ := h.run
  refine ⟨⟨m, hm, hpath.snoc e hs⟩, ?_⟩
  intro a ha
  rcases List.mem_append.mp ha with ha | ha
  · exact h.server a ha
  · rw [List.mem_singleton.mp ha]
    exact he

section

variable {p : Pid} {hd : Handler} {route : Route} {w v : World} {tr : List (World × Event)}

theorem Phase.pending {won : Prop} {ops : List (Call × Option Store.Reply)} {rs : List Handler}
    {n : ℕ} (h : Phase hd route won ops rs n) (hrs : rs = []) :
    n < 6 ∧ ∃ c r, ops = [(c, r)] ∧ Serves hd route c := by
  cases h with
  | sent c serves early =>
    have hstage := serves.stage_lt
    exact ⟨by omega, c, none, rfl, serves⟩
  | answered c r serves final =>
    have hstage := serves.stage_lt
    exact ⟨by omega, c, some r, rfl, serves⟩
  | resolved => cases hrs

theorem Handling.append {s : Str} {req : Request} {now : ℕ} {v' : World} {tr' : List (World × Event)}
    (h : Handling p s req now w tr v) (hpath : Run.Path step v tr' v')
    (hserver : ∀ a ∈ tr', a.2.server = true) : Handling p s req now w (tr ++ tr') v' := by
  obtain ⟨m, hm, hrun⟩ := h.run
  refine ⟨⟨m, hm, hrun.append hpath⟩, ?_⟩
  intro a ha
  rcases List.mem_append.mp ha with ha | ha
  · exact h.server a ha
  · exact hserver a ha

variable {s : Str} {req : Request} {now : ℕ}

/-- A call of the request comes to its callback, whatever else is in flight. -/
theorem Handling.advance {c : Call} {o : Option Store.Reply} (hh : Handling p s req now w tr v)
    (hw : WF v) (hc : (c, o) ∈ (v.procs p).queue) (hhandler : c.handler.isSome = true) :
    ∃ tr' v', Handling p s req now w (tr ++ tr') v' ∧
      moves (requestSteps p s req now w tr) < moves (requestSteps p s req now w (tr ++ tr')) := by
  obtain ⟨u, r, rest, hreach, hans⟩ := reaches_callback hw hc
  obtain ⟨tr', hpath, hserver⟩ := hreach.path
  obtain ⟨v', hs⟩ := reply_enabled hans
  have hin : inputOf u (.reply p) = some (p, .reply c r) := by
    simp only [inputOf, hans]
  have hmoves : u.moves (.reply p) = true := by
    rw [(handled_takeOff hs hin).moves_reply]
    exact hhandler
  refine ⟨tr' ++ [(u, .reply p)], v', ?_, ?_⟩
  · rw [← List.append_assoc]
    exact (hh.append hpath hserver).snoc rfl hs
  · simp only [moves, requestSteps, List.countP_append, List.countP_cons, List.countP_nil, hmoves,
      if_true]
    omega

/-- From every state the request can be brought to its response. -/
theorem Handling.resolvable (hproc : ∀ tr v, Handling p s req now w tr v →
      Processing p hd route w (requestSteps p s req now w tr) v) (n : ℕ)
    (hh : Handling p s req now w tr v) (hn : 6 ≤ moves (requestSteps p s req now w tr) + n) :
    ∃ tr' v', Handling p s req now w (tr ++ tr') v' ∧
      (resolutions (requestSteps p s req now w (tr ++ tr'))).length = 1 := by
  induction n generalizing tr v with
  | zero =>
    refine ⟨[], v, by rwa [List.append_nil], ?_⟩
    rw [List.append_nil]
    apply (hproc tr v hh).phase.once
    intro hrs
    have hmoves := ((hproc tr v hh).phase.pending hrs).1
    omega
  | succ n ih =>
    by_cases hrs : resolutions (requestSteps p s req now w tr) = []
    · obtain ⟨_, c, r, hops, hc⟩ := (hproc tr v hh).phase.pending hrs
      have hmem : (c, r) ∈ (v.procs p).flight fun c => !c.background := by
        rw [← ops_flight, hops]
        exact List.mem_singleton_self _
      obtain ⟨tr', v', hh', hlt⟩ := hh.advance (hproc tr v hh).wf (mem_queue_of_flight hmem)
        (by rw [hc.handler]; rfl)
      obtain ⟨tr'', v'', hh'', hone⟩ := ih hh' (by omega)
      rw [List.append_assoc] at hh'' hone
      exact ⟨tr' ++ tr'', v'', hh'', hone⟩
    · refine ⟨[], v, by rwa [List.append_nil], ?_⟩
      rw [List.append_nil]
      exact (hproc tr v hh).phase.once hrs

/- A call of a request is one that will answer it. -/
theorem Processing.requests (hp : Processing p hd route w tr v) :
    (v.procs p).calls.countP (fun c => c.handler.isSome) = (v.procs p).ops.length := by
  have hsame : ∀ c ∈ (v.procs p).calls, (c.handler.isSome = true ↔ (!c.background) = true) := by
    intro c hc
    rcases hp.calls p c hc with hb | ⟨_, hs⟩
    · rw [background_handler hb, hb]
      exact Iff.rfl
    · rw [hs.handler, hs.not_background]
      exact iff_of_true rfl rfl
  rw [List.countP_congr hsame, Proc.calls, List.countP_append, List.countP_map, Proc.ops,
    List.length_append, List.length_map, List.length_map, List.countP_eq_length_filter,
    List.countP_eq_length_filter]
  rfl

/- The request is resolved once, and a response with an error comes with the
rooms untouched. -/
structure FailsCleanly (p : Pid) (s : Str) (req : Request) (now : ℕ) (route : Route) (w : World)
    (tr : List (World × Event)) (v : World) : Prop where
  once : (resolutions (requestSteps p s req now w tr)).length +
    (v.procs p).calls.countP (fun c => c.handler.isSome) = 1
  resolves : ∃ tr' v', Handling p s req now w (tr ++ tr') v' ∧
    (resolutions (requestSteps p s req now w (tr ++ tr'))).length = 1
  errno : ∀ answer ∈ resolutions (requestSteps p s req now w tr),
    answer.socketId = s ∧ answer.resData.id = req.id ∧ answer.resData.route = route ∧
      (answer.resData.errno = 0 ↔ FinalSucceeded route (requestSteps p s req now w tr))
  kept : ∀ answer ∈ resolutions (requestSteps p s req now w tr),
    answer.resData.errno ≠ 0 → RoomsKept w v

theorem Phase.answer {won : Prop} {ops : List (Call × Option Store.Reply)} {rs : List Handler}
    {n : ℕ} (h : Phase hd route won ops rs n) (answer : Handler) (ha : answer ∈ rs) :
    (answer.socketId = hd.socketId ∧ answer.resData.id = hd.resData.id ∧
      answer.resData.route = hd.resData.route) ∧ (answer.resData.errno = 0 ↔ won) := by
  cases h with
  | sent | answered => cases ha
  | resolved answer' n request errno =>
    rw [List.mem_singleton.mp ha]
    exact ⟨request, errno⟩

theorem Handling.processing {user : User} (hh : Handling p s req now w tr v) (hw : WF w)
    (hu : (w.procs p).userList.get s = some user)
    (hroute : getRouterByName req.route = some (.handler route))
    (hroom : route.isRoomRequest = true) :
    Processing p (loggedRespond s req route) route w (requestSteps p s req now w tr) v := by
  obtain ⟨m, hm, hpath⟩ := hh.run
  have hserver := hh.server
  clear hh
  induction hpath with
  | nil => exact Processing.start hw hu hroute hroom hm
  | snoc e hpath hs ih =>
    have hbefore := ih fun a ha => hserver a (List.mem_append_left _ ha)
    exact hbefore.after rfl (hserver (_, e) (List.mem_append_right _ (List.mem_singleton_self _))) hs

theorem Handling.resolvesFor {user : User} (hh : Handling p s req now w tr v) (hw : WF w)
    (hu : (w.procs p).userList.get s = some user)
    (hroute : getRouterByName req.route = some (.handler route))
    (hroom : route.isRoomRequest = true) :
    ∀ a ∈ requestSteps p s req now w tr, a.1.ResolvesFor p s a.2 := by
  obtain ⟨m, hm, hpath⟩ := hh.run
  have hserver := hh.server
  clear hh
  rw [requestSteps, List.forall_mem_cons]
  refine ⟨message_resolvesFor hm, ?_⟩
  induction hpath with
  | nil => exact List.forall_mem_nil _
  | snoc e hpath hs ih =>
    have hbefore := fun a ha => hserver a (List.mem_append_left _ ha)
    have hp := (Handling.mk ⟨m, hm, hpath⟩ hbefore).processing hw hu hroute hroom
    have he := hserver (_, e) (List.mem_append_right _ (List.mem_singleton_self _))
    rw [List.forall_mem_append, List.forall_mem_singleton]
    exact ⟨ih hbefore, hp.resolvesFor he hs⟩

theorem Handling.path (hh : Handling p s req now w tr v) :
    Run.Path step w.alone (requestSteps p s req now w tr) v := by
  obtain ⟨m, hm, hpath⟩ := hh.run
  exact .cons hm hpath

/-- On a connection that stays open a room request gets one response, or still has its
call in flight; the `errno` of the response is 0 exactly when the final command succeeded, and
otherwise the rooms, their members and `ctx.roomId` are as before. -/
theorem room_requests_responded (hreach : Reachable w)
    (hlogged : ((w.procs p).userList.get s).isSome = true)
    (hroute : getRouterByName req.route = some (.handler route))
    (hroom : route.isRoomRequest = true) (hh : Handling p s req now w tr v)
    (hopen : ∀ a ∈ requestSteps p s req now w tr, (a.1.procs p).ws s = some .opened) :
    ∃ rs, (v.procs p).responses s = (w.procs p).responses s ++ rs ∧
      rs.length + (v.procs p).calls.countP (fun c => c.handler.isSome) = 1 ∧
      ∀ resData ∈ rs, resData.id = req.id ∧ resData.route = route ∧
        (resData.errno = 0 ↔ FinalSucceeded route (requestSteps p s req now w tr)) ∧
        (resData.errno ≠ 0 → RoomsKept w v) := by
  obtain ⟨user, hu⟩ := Option.isSome_iff_exists.mp hlogged
  have hw := WF.initial.reach hreach
  have hp := hh.processing hw hu hroute hroom
  have hresponses := path_responses hw.alone hh.path hopen (hh.resolvesFor hw hu hroute hroom)
  refine ⟨_, hresponses, ?_, ?_⟩
  · rw [List.length_map, hp.requests]
    exact hp.phase.count
  · intro resData hr
    obtain ⟨answer, ha, rfl⟩ := List.mem_map.mp hr
    obtain ⟨⟨-, hid, hroute'⟩, herrno⟩ := hp.phase.answer answer ha
    exact ⟨hid, hroute', herrno, fun herr => hp.kept fun hwon => herr (herrno.mpr hwon)⟩

/-- However the commands of a room request end, it is resolved exactly once; its
`errno` is 0 exactly when its final command succeeded, and otherwise the rooms,
their members and `ctx.roomId` are as before. -/
theorem room_requests_fail_cleanly (w v : World) (p : Pid) (s : Str) (req : Request) (now : ℕ)
    (route : Route) (tr : List (World × Event)) (hreach : Reachable w)
    (hlogged : ((w.procs p).userList.get s).isSome = true)
    (hroute : getRouterByName req.route = some (.handler route))
    (hroom : route.isRoomRequest = true) (hh : Handling p s req now w tr v) :
    FailsCleanly p s req now route w tr v := by
  obtain ⟨user, hu⟩ := Option.isSome_iff_exists.mp hlogged
  have hproc := fun tr v (hh : Handling p s req now w tr v) =>
    hh.processing (WF.initial.reach hreach) hu hroute hroom
  have hp := hproc tr v hh
  refine ⟨?_, hh.resolvable hproc 6 (Nat.le_add_left 6 _), ?_, ?_⟩
  · rw [hp.requests]
    exact hp.phase.count
  · intro answer ha
    obtain ⟨⟨hs, hid, hr⟩, herrno⟩ := hp.phase.answer answer ha
    exact ⟨hs, hid, hr, herrno⟩
  · intro answer ha herr
    exact hp.kept fun hwon => herr ((hp.phase.answer answer ha).2.mpr hwon)

end

/- A asks to join room 1; the `SMEMBERS` and the `SADD` of it fail. -/
def joinRequest : Request := Route.roomIn.request none (.str ['1'])

def joining : World := Run.ends step twoUsers.alone [.message 0 (socketIdOf ['A']) joinRequest 6]

def failedJoin : List Event :=
  served 0 [roomPattern ['1']] ++ [.exec 0 (.failed []), .reply 0, .exec 0 (.failed []), .reply 0]

theorem failed_join_untouched :
    FailsCleanly 0 (socketIdOf ['A']) joinRequest 6 .roomIn twoUsers
        (Run.steps step joining failedJoin) (Run.ends step joining failedJoin) ∧
      (resolutions (requestSteps 0 (socketIdOf ['A']) joinRequest 6 twoUsers
        (Run.steps step joining failedJoin))).map (fun answer => answer.resData.errno) = [16104] := by
  have hrequest : (Run.runs step twoUsers.alone
      ([] ++ [.message 0 (socketIdOf ['A']) joinRequest 6])).isSome = true := by decide +kernel
  have hserver : (Run.steps step joining failedJoin).all (fun a => a.2.server) = true := by
    decide +kernel
  have hhandling : Handling 0 (socketIdOf ['A']) joinRequest 6 twoUsers
      (Run.steps step joining failedJoin) (Run.ends step joining failedJoin) :=
    ⟨⟨joining, Run.step_ends hrequest, Run.path_ends failedJoin (by decide +kernel)⟩,
      List.all_eq_true.mp hserver⟩
  refine ⟨room_requests_fail_cleanly twoUsers _ 0 (socketIdOf ['A']) joinRequest 6 .roomIn _
    twoUsers_reachable (by decide +kernel) (by decide +kernel) rfl hhandling, ?_⟩
  decide +kernel

end NodeServer

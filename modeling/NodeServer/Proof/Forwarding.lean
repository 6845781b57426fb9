import NodeServer.Proof.Live
import NodeServer.Proof.Lookup

/-! # Forwarded notices

A session becomes visible to other processes when Redis executes its `HMSET`, and
its own process can route to it only once the callback of the `HMSET` has run. A
notice that is forwarded and delivered in between finds no user. -/

namespace NodeServer

open DBModelKeys

/-! ### Sessions other processes know of -/

/- While the socket is open its process has an entry for it, or is about to. -/
def Registered (w : World) (s : Str) : Prop :=
  s ∈ w.socketIds ∧ ∀ p, (w.procs p).ws s = some .opened →
    (w.procs p).userList.get s ≠ none ∨ LoginAnswered (w.procs p).answered s

section

variable {w v : World} {e : Event} {p : Pid} {s : Str}

theorem Registered.recorded (hl : AllLive w) {u : Str} (hid : s ∈ w.socketIds)
    (h : w.db.get (uniquePattern u s) ≠ none) : Registered w s := by
  refine ⟨hid, ?_⟩
  intro p hopen
  rcases (hl p s hopen).recorded u h with hin | hlog
  · exact Or.inl hin
  · exact Or.inr hlog.any

theorem Registered.executed {c : Call} {r : Store.Reply} (h : Executed w v e p c r)
    (hr : Registered w s) : Registered v s := by
  refine ⟨by rw [h.socketIds]; exact hr.1, ?_⟩
  intro q hopen
  rw [h.ws q s] at hopen
  rw [h.users q]
  rcases hr.2 q hopen with hin | hlog
  · exact Or.inl hin
  · refine Or.inr (hlog.mono ?_)
    intro cr hcr
    by_cases hq : q = p
    · subst hq
      rw [h.answered]
      exact List.mem_append_left _ hcr
    · rwa [h.others q hq]

theorem Registered.handled {i : Input} {x : Proc} (hw : WF w) (hl : AllLive w)
    (h : Handled w v e p i x) (hr : Registered w s) : Registered v s := by
  refine ⟨by rw [h.socketIds]; exact List.mem_append_right _ hr.1, ?_⟩
  intro q hstays
  rcases h.open_back hw q s hstays with hopen | ⟨_, now, hi⟩
  · rcases hr.2 q hopen with hin | hlog
    · exact Or.inl (h.user_stays hw (hl q s hopen) hopen hstays hin)
    · by_cases hq : q = p
      · subst hq
        obtain ⟨news, outs, heff⟩ := h.effect hw
        rw [heff.answered]
        exact h.login_moves h.answered.symm hlog
      · rw [(h.other_conns q hq).2.2.2]
        exact Or.inr hlog
  · exact absurd hr.1 (h.fresh s now hi).1

end

/- Whatever a process has heard of through Redis was registered. -/
structure Heard (w : World) : Prop where
  packets : ∀ q, ∀ packet ∈ (w.procs q).outbox, Registered w packet.socketId
  found : ∀ q, ∀ c ∈ (w.procs q).calls, ∀ user ∈ c.found, Registered w user.socketId
  read : ∀ q key keys userList next res,
    (.lookupHash key keys userList next, .hash res) ∈ (w.procs q).answered →
    Registered w (fieldOf res SocketIdKey)

section

variable {w v : World} {e : Event} {p : Pid}

theorem Heard.executed {c : Call} {r : Store.Reply} (hw : WF w) (hl : AllLive w) (hh : Heard w)
    (h : Executed w v e p c r) : Heard v := by
  constructor
  · intro q packet hm
    have hout : (v.procs q).outbox = (w.procs q).outbox := by
      by_cases hq : q = p
      · subst hq
        exact h.outbox
      · rw [h.others q hq]
    rw [hout] at hm
    exact (hh.packets q packet hm).executed h
  · intro q c' hc' user hu
    rw [h.calls q] at hc'
    exact (hh.found q c' hc' user hu).executed h
  · intro q key keys userList next res hm
    rcases h.mem_answered q _ _ hm with hm | ⟨rfl, rfl, rfl⟩
    · exact (hh.read q key keys userList next res hm).executed h
    · -- the record was in Redis when it was read
      obtain ⟨user, o, hof, _, hrec, hdb⟩ := h.read hw
      rw [hrec, fieldOf_record_socketId]
      have hin : w.db.get (uniquePattern user.userId user.socketId) ≠ none :=
        fun hn => Option.some_ne_none _ (hdb.symm.trans hn)
      exact (Registered.recorded hl (hw.ids o _ hof.1) hin).executed h

variable {i : Input} {x : Proc}

theorem Heard.redisUser (hw : WF w) (hh : Heard w) (h : Handled w v e p i x) {key : Str}
    {keys : List Str} {userList : List User} {next : LookupFor} {res : List (Str × Str)}
    (hi : i = .reply (.lookupHash key keys userList next) (.hash res)) :
    Registered w (x.getUserWithRedis res).socketId := by
  have hread := hh.read p key keys userList next res (h.reply_mem _ _ hi)
  obtain ⟨_, user, o, _, _, rfl⟩ := h.callOk hw _ _ hi
  rw [fieldOf_record_socketId] at hread
  rw [getUserWithRedis_record]
  cases hu : x.userList.get user.socketId with
  | some u =>
    obtain ⟨hsock, _⟩ := h.local_user hw _ u hu
    simp only [hsock]
    exact hread
  | none => exact hread

theorem Heard.resolved (hw : WF w) (hh : Heard w) (h : Handled w v e p i x) {next : LookupFor}
    {userList : List User} (hr : Resolves i x next userList) (user : User) (hu : user ∈ userList) :
    Registered w user.socketId := by
  rcases hr with ⟨userId, r, _, _, rfl⟩ | ⟨key, found, res, hi, rfl⟩
  · cases hu
  · rcases List.mem_append.mp hu with hu | hu
    · exact hh.found p _ (List.mem_append_left _ (List.mem_map_of_mem (h.reply_mem _ _ hi))) user hu
    · rw [List.mem_singleton.mp hu]
      exact hh.redisUser hw h hi

theorem Heard.handled (hw : WF w) (hl : AllLive w) (hh : Heard w) (h : Handled w v e p i x) :
    Heard v := by
  constructor
  · intro q packet hm
    by_cases hq : q = p
    · subst hq
      obtain ⟨news, outs, heff⟩ := h.effect hw
      rw [heff.outbox] at hm
      rcases List.mem_append.mp hm with hm | hm
      · exact (hh.packets q packet (h.outbox packet hm)).handled hw hl h
      · obtain ⟨notice, after, userList, user, hr, hu, _, rfl⟩ := heff.forwards packet hm
        exact (hh.resolved hw h hr user hu).handled hw hl h
    · obtain ⟨outbox, hv, hsub⟩ := h.others q hq
      rw [hv] at hm
      exact (hh.packets q packet (hsub packet hm)).handled hw hl h
  · intro q c hc user hu
    rcases h.call_cases hw q c hc with hc | ⟨rfl, ho⟩
    · exact (hh.found q c hc user hu).handled hw hl h
    · cases ho with
      | hashFirst userId next key rest replied => cases hu
      | hashNext key₀ next key rest userList res replied =>
        rcases List.mem_append.mp hu with hu | hu
        · have hm := List.mem_append_left (w.procs q).sent
            (List.mem_map_of_mem (f := Prod.fst) (h.reply_mem _ _ replied))
          exact (hh.found q _ hm user hu).handled hw hl h
        · rw [List.mem_singleton.mp hu]
          exact (hh.redisUser hw h replied).handled hw hl h
      | _ => cases hu
  · intro q key keys userList next res hm
    exact (hh.read q key keys userList next res (h.answered_sub hw q _ hm)).handled hw hl h

end

theorem heard_reach {ok : World → Event → Prop} {w : World}
    (h : Run.Reach step ok World.initial w) : WF w ∧ AllLive w ∧ Heard w := by
  refine h.invariant (fun w => WF w ∧ AllLive w ∧ Heard w) ?_ ?_
  · have hstart : Run.Reach step ok World.initial World.initial := .refl
    obtain ⟨hw, hl⟩ := allLive_reach hstart
    refine ⟨hw, hl, ?_, ?_, ?_⟩
    · intro q packet hm
      cases hm
    · intro q c hc
      cases hc
    · intro q key keys userList next res hm
      cases hm
  · rintro w e v ⟨hw, hl, hh⟩ _ hs
    refine ⟨hw.step hs, hl.step hw hs, ?_⟩
    rcases step_cases w v e hs with ⟨p, c, r, h⟩ | ⟨p, i, x, h⟩
    · exact hh.executed hw hl h
    · exact hh.handled hw hl h

/-! ### Deliveries -/

/-- A forwarded notice for a known user whose socket is open is written, and
closes the socket when it is a kick. -/
theorem onPacket_open (x : Proc) (packet : Packet) (user : User)
    (hu : x.userList.get packet.socketId = some user) (hs : user.socketId = packet.socketId)
    (hopen : x.ws packet.socketId = some .opened) :
    (x.onPacket packet).frames packet.socketId = x.frames packet.socketId ++
        [.notice (x.noticeId user.ref) packet.notice (some packet.socketId)] ∧
      (x.onPacket packet).ws packet.socketId =
        some (if packet.notice.isKick then .closing else .opened) := by
  obtain ⟨c, hc, hcopen⟩ := Option.map_eq_some_iff.mp hopen
  have huser : x.getUserWithSocket packet.socketId = some user := hu
  have hws : (x.bumpNotice user).ws packet.socketId = some .opened := hopen
  have hconn : (x.bumpNotice user).conns.get packet.socketId = some c := hc
  simp only [Proc.onPacket, huser, hs, Proc.wsSend, hws, if_true]
  cases packet.notice.isKick with
  | true =>
    simp [Proc.wsClose, Proc.setConn, Proc.frames, Proc.ws, Table.get_modify, hconn, hc, hcopen]
  | false =>
    simp [Proc.setConn, Proc.frames, Proc.ws, Table.get_modify, hconn, hc, hcopen]

theorem onPacket_unknown (x : Proc) (packet : Packet)
    (hu : x.userList.get packet.socketId = none) : x.onPacket packet = x := by
  have huser : x.getUserWithSocket packet.socketId = none := hu
  simp only [Proc.onPacket, huser]

/- The notice has been written to its connection, and a kick has closed it. -/
structure NoticeDelivered (w v : World) (p : Pid) (packet : Packet) : Prop where
  written : ∃ n, (v.procs p).frames packet.socketId = (w.procs p).frames packet.socketId ++
    [.notice n packet.notice (some packet.socketId)]
  kicked : packet.notice.isKick = true → (v.procs p).ws packet.socketId = some .closing

/- The `HMSET` of the session has been executed and its callback has not run. -/
def LoginPending (w : World) (p : Pid) (s : Str) : Prop :=
  (w.procs p).userList.get s = none ∧ LoginAnswered (w.procs p).answered s

/-- A notice delivered to an open connection is written, except between the
`HMSET` of the session and its callback. -/
theorem notice_delivered_iff (w v : World) (q p : Pid) (n : ℕ) (packet : Packet)
    (hreach : Reachable w) (hpacket : (w.procs q).outbox[n]? = some packet)
    (hdeliver : step w (.deliver q n p) = some v)
    (hopen : (w.procs p).ws packet.socketId = some .opened) :
    NoticeDelivered w v p packet ↔ ¬ LoginPending w p packet.socketId := by
  obtain ⟨hw, _, hh⟩ := heard_reach hreach
  have hreg := (hh.packets q packet (List.mem_of_getElem? hpacket)).2 p hopen
  obtain ⟨x, h⟩ : ∃ x, Handled w v (.deliver q n p) p (.packet packet) x := by
    obtain ⟨q', i, x, h⟩ := step_handled hdeliver rfl
    have hin := h.input
    simp only [inputOf, hpacket] at hin
    split at hin
    · cases hin
      exact ⟨x, h⟩
    · cases hin
  have hafter : v.procs p = x.onPacket packet := h.after
  have hframes : x.frames packet.socketId = (w.procs p).frames packet.socketId := by
    simp only [Proc.frames, h.conns]
  cases hu : (w.procs p).userList.get packet.socketId with
  | none =>
    have hsame := onPacket_unknown x packet (by rw [h.userList, hu])
    rw [hu] at hreg
    have hpending : LoginPending w p packet.socketId :=
      ⟨hu, hreg.resolve_left (fun hne => hne rfl)⟩
    constructor
    · intro hd
      obtain ⟨m, hm⟩ := hd.written
      rw [hafter, hsame, hframes] at hm
      exact absurd hm (by simp)
    · intro hnot
      exact absurd hpending hnot
  | some user =>
    have hsock := (hw.users p _ user hu).1
    have hws : x.ws packet.socketId = some .opened := by
      simp only [Proc.ws, h.conns]
      exact hopen
    obtain ⟨hwritten, hclosed⟩ := onPacket_open x packet user (by rw [h.userList, hu]) hsock hws
    rw [← hafter] at hwritten hclosed
    rw [hframes] at hwritten
    constructor
    · rintro _ ⟨hnone, _⟩
      rw [hu] at hnone
      cases hnone
    · intro _
      refine ⟨⟨_, hwritten⟩, ?_⟩
      intro hk
      rw [hclosed, hk]
      rfl

/-! ### A kick delivered after the callback of the login, and one before it -/

/- B logs in on process 1 as the user of A and forwards the kick. -/
def kickSentTrace : List Event :=
  [.connect 1 ['B'] 3, .message 1 (socketIdOf ['B']) (loginRequest ['u']) 4,
    .exec 1 (.done [uniquePattern ['u'] (socketIdOf ['A'])]), .reply 1, .exec 1 (.done []), .reply 1]

def kickPacket : Packet := ⟨appInfo 0, socketIdOf ['A'], .kick ['u']⟩

/- A's login is complete. -/
def kickAfterTrace : List Event := onlineTrace ['u'] ++ kickSentTrace

theorem notice_delivered_after_login :
    NoticeDelivered (Run.ends step World.initial kickAfterTrace)
        (Run.ends step World.initial (kickAfterTrace ++ [.deliver 1 0 0])) 0 kickPacket ↔
      ¬ LoginPending (Run.ends step World.initial kickAfterTrace) 0 kickPacket.socketId :=
  notice_delivered_iff _ _ 1 0 0 kickPacket (Run.reach_ends _ (by decide +kernel))
    (by decide +kernel) (Run.step_ends (by decide +kernel)) (by decide +kernel)

/- The `HMSET` of A's login is executed and its callback has not run. -/
def kickDuringTrace : List Event := loginTrace ++ .exec 0 (.done []) :: kickSentTrace

theorem notice_dropped :
    ¬ ∀ (w v : World) (q p : Pid) (n : ℕ) (packet : Packet), Reachable w →
      (w.procs q).outbox[n]? = some packet → step w (.deliver q n p) = some v →
      (w.procs p).ws packet.socketId = some .opened → NoticeDelivered w v p packet := by
  intro hall
  have hreach : Reachable (Run.ends step World.initial kickDuringTrace) :=
    Run.reach_ends kickDuringTrace (by decide +kernel)
  have hstep : step (Run.ends step World.initial kickDuringTrace) (.deliver 1 0 0) =
      some (Run.ends step World.initial (kickDuringTrace ++ [.deliver 1 0 0])) :=
    Run.step_ends (by decide +kernel)
  have hd := hall _ _ 1 0 0 kickPacket hreach (by decide +kernel) hstep (by decide +kernel)
  exact absurd (hd.kicked rfl) (by decide +kernel)

end NodeServer

import NodeServer.Proof.Ghost

/-! # Agreement of `userList` and the online records

`userList` is keyed by socket id, Redis by user id and socket id, and the two
are written in different steps. -/

namespace NodeServer

open DBModelKeys

/-! ### The users an input logs out -/

def logouts (p : Pid) (i : Input) (x : Proc) : List User :=
  match i with
  | .wsClose s => (x.userList.get s).toList
  | .wsError s => (x.userList.get s).toList
  | .message s req _ =>
    if getRouterByName req.route = none ∧ x.isSettled s = false then (x.userList.get s).toList
    else []
  | .reply (.lookupHash _ [] found (.notice _ _)) (.hash res) =>
    (found ++ [x.getUserWithRedis res]).filter (x.fails p)
  | _ => []

theorem mem_logouts (p : Pid) (i : Input) (x : Proc) (user : User) (h : LogsOut p i x user) :
    user ∈ logouts p i x := by
  rcases h with ⟨s, hd, hu⟩ | ⟨notice, after, userList, hr, hmem, happ, hfail⟩
  · rcases hd with rfl | rfl | ⟨req, now, rfl, hroute, hset⟩
    · simp [logouts, hu]
    · simp [logouts, hu]
    · simp [logouts, hroute, hset, hu]
  · rcases hr with ⟨userId, r, rfl, _, rfl⟩ | ⟨key, found, res, rfl, rfl⟩
    · cases hmem
    · refine List.mem_filter.mpr ⟨hmem, ?_⟩
      exact decide_eq_true ⟨happ, hfail⟩

/-- Which users are logged out does not depend on the queues. -/
theorem Handled.logsOut_before {w v : World} {e : Event} {p : Pid} {i : Input} {x : Proc}
    (h : Handled w v e p i x) (user : User) (hl : LogsOut p i x user) :
    LogsOut p i (w.procs p) user := by
  have hset : ∀ s, (w.procs p).isSettled s = x.isSettled s := by
    intro s
    simp only [Proc.isSettled, h.conns]
  have hredis : ∀ res, (w.procs p).getUserWithRedis res = x.getUserWithRedis res := by
    intro res
    simp only [Proc.getUserWithRedis, Proc.getUserWithSocket, h.userList, h.nextRef]
  have hsend : x.Sendable user ↔ (w.procs p).Sendable user := by
    simp only [Proc.Sendable, Proc.ws, h.conns]
  rcases hl with ⟨s, hd, hu⟩ | ⟨notice, after, userList, hr, hmem, happ, hfail⟩
  · rw [h.userList] at hu
    refine Or.inl ⟨s, ?_, hu⟩
    unfold Disconnects
    rw [hset]
    exact hd
  · refine Or.inr ⟨notice, after, userList, ?_, hmem, happ, fun hs => hfail (hsend.mpr hs)⟩
    simpa only [Resolves, hredis] using hr

/- A user is logged out only while no login is in flight on its connection. -/
def LogoutWaits (w : World) (e : Event) : Prop :=
  ∀ pi ∈ inputOf w e, ∀ user ∈ logouts pi.1 pi.2 (w.procs pi.1),
    ∀ l, InFlight w pi.1 user.socketId l → False

instance (w : World) (e : Event) : Decidable (LogoutWaits w e) :=
  inferInstanceAs (Decidable (∀ pi ∈ inputOf w e, ∀ user ∈ logouts pi.1 pi.2 (w.procs pi.1),
    ∀ l, InFlight w pi.1 user.socketId l → False))

theorem Handled.logout_waits {w v : World} {e : Event} {p : Pid} {i : Input} {x : Proc}
    (h : Handled w v e p i x) (hc : LogoutWaits w e) (user : User) (hl : LogsOut p i x user)
    (l : LoginReq) : ¬ InFlight w p user.socketId l := by
  exact hc (p, i) h.input user (mem_logouts p i _ user (h.logsOut_before user hl)) l

/-! ### Entries have a record -/

structure Backed (w : World) : Prop where
  user : ∀ p s user, (w.procs p).userList.get s = some user →
    w.db.get user.key ≠ none ∧ ¬ Leaving w p s
  login : ∀ p s l, InFlight w p s l → ¬ Leaving w p s
  answered : ∀ p l r, (.loginSet l, r) ∈ (w.procs p).answered → w.db.get l.user.key ≠ none

theorem Executed.leaving_back {w v : World} {e : Event} {q : Pid} {c : Call} {r : Store.Reply}
    (h : Executed w v e q c r) (p : Pid) (s : Str) (hl : Leaving v p s) : Leaving w p s := by
  obtain ⟨user, hm, hs⟩ := hl
  exact ⟨user, h.sent_back hm, hs⟩

theorem Executed.record_stays {w v : World} {e : Event} {q : Pid} {c : Call} {r : Store.Reply}
    (h : Executed w v e q c r) (hw : WF w) (p : Pid) (user : User) (hown : w.own p user.socketId)
    (hrec : w.db.get user.key ≠ none) (hstay : ¬ Leaving w p user.socketId) :
    v.db.get user.key ≠ none := by
  rcases h.online hw user.key (IsOnlineKey.user _ _) with hdb | ⟨l, _, _, hset⟩ | ⟨gone, rfl, hkey, _⟩
  · rwa [hdb]
  · rw [hset]
    exact Option.some_ne_none _
  · have hq : UserOf w.own q gone := hw.calls q _ h.mem_calls
    have hsock := (hw.key_inj hq.1 hown hkey).2
    have hqo := hq.1
    rw [hsock] at hqo
    have hqp := hw.owner q p _ hqo hown
    subst hqp
    refine absurd ⟨gone, ?_, hsock⟩ hstay
    rw [h.sent]
    exact List.mem_cons_self ..

theorem Backed.executed {w v : World} {e : Event} {q : Pid} {c : Call} {r : Store.Reply} (hw : WF w)
    (hb : Backed w) (hok : NoFailure e) (h : Executed w v e q c r) : Backed v := by
  refine ⟨?_, ?_, ?_⟩
  · intro p s user hu
    rw [h.users p] at hu
    obtain ⟨hsock, hloc⟩ := hw.users p s user hu
    obtain ⟨hrec, hstay⟩ := hb.user p s user hu
    refine ⟨h.record_stays hw p user hloc.1.1 hrec (by rwa [hsock]), ?_⟩
    exact fun hl => hstay (h.leaving_back p s hl)
  · intro p s l hl hleave
    exact hb.login p s l ((h.inFlight p s l).mp hl) (h.leaving_back p s hleave)
  · intro p l r' hm
    rcases h.mem_answered p _ _ hm with hm | ⟨rfl, rfl, rfl⟩
    · have hin : InFlight w p l.user.socketId l :=
        ⟨⟨_, List.mem_append_left _ (List.mem_map_of_mem hm), rfl⟩, rfl⟩
      exact h.record_stays hw p l.user (hw.inFlight_local hin).1.1 (hb.answered p l r' hm)
        (hb.login p _ l hin)
    · rcases h.db with ⟨order, _, hdb, _⟩ | ⟨message, he, _, _⟩
      · rw [hdb]
        have hset := hmset_record w.own w.db hw.db l.user
        exact fun hn => Option.some_ne_none _ (hset.symm.trans hn)
      · rw [he] at hok
        exact hok.elim

theorem Backed.handled {w v : World} {e : Event} {q : Pid} {i : Input} {x : Proc} (hw : WF w)
    (hl : AllLive w) (hb : Backed w) (hagree : LoginsAgree w e) (hwait : LogoutWaits w e)
    (h : Handled w v e q i x) : Backed v := by
  obtain ⟨news, outs, heff⟩ := h.effect hw
  -- a user logged out in this step has lost its entry
  have hleft : ∀ p s, Leaving v p s → Leaving w p s ∨ (p = q ∧ (v.procs q).userList.get s = none ∧
      ∃ user, user.socketId = s ∧ LogsOut q i x user) := by
    rintro p s ⟨user, hm, hs⟩
    by_cases hp : p = q
    · subst hp
      rw [heff.sent, h.sent] at hm
      rcases List.mem_append.mp hm with hm | hm
      · exact Or.inl ⟨user, hm, hs⟩
      · cases heff.origin _ hm with
        | logoutDel _ hlog =>
          refine Or.inr ⟨rfl, ?_, user, hs, hlog⟩
          rw [← hs]
          exact heff.gone user hm
    · rw [(h.other_conns p hp).2.2.1] at hm
      exact Or.inl ⟨user, hm, hs⟩
  refine ⟨?_, ?_, ?_⟩
  · intro p s user hu
    rw [h.db]
    have hold : w.db.get user.key ≠ none ∧ ¬ Leaving w p s := by
      by_cases hp : p = q
      · subst hp
        rcases heff.users s with hs | ⟨hs, _⟩ | ⟨l, r, hi, hsock, hs⟩
        · rw [hs, h.userList] at hu
          exact hb.user p s user hu
        · rw [hs] at hu
          cases hu
        · rw [hs] at hu
          cases hu
          exact ⟨hb.answered p l r (h.reply_mem _ _ hi),
            hb.login p s l ⟨⟨_, h.reply_call hi, rfl⟩, hsock⟩⟩
      · rw [(h.other_conns p hp).2.1] at hu
        exact hb.user p s user hu
    refine ⟨hold.1, ?_⟩
    intro hleave
    rcases hleft p s hleave with hleave | ⟨rfl, hnone, _⟩
    · exact hold.2 hleave
    · rw [hnone] at hu
      cases hu
  · intro p s l hin hleave
    rcases h.inFlight_cases hw hin with hin | ⟨rfl, hstart⟩
    · rcases hleft p s hleave with hleave | ⟨rfl, _, user, hs, hlog⟩
      · exact hb.login p s l hin hleave
      · have hfree := h.logout_waits hwait user hlog l
        rw [hs] at hfree
        exact hfree hin
    · -- a login starts on an open socket, where no logout is under way
      obtain ⟨hnone, hopen, _⟩ := h.start_agrees hagree hstart
      rcases hleft p s hleave with ⟨user, hm, hs⟩ | ⟨_, _, user, hs, hlog⟩
      · exact (hl p s hopen).kept p user hm hs
      · obtain ⟨req, now, ⟨hi, hroute⟩, _⟩ := hstart
        rcases hlog with ⟨t, hd, _⟩ | ⟨notice, after, userList, hr, _⟩
        · rcases hd with hd | hd | ⟨req', now', hd, hroute', _⟩
          · rw [hi] at hd
            cases hd
          · rw [hi] at hd
            cases hd
          · rw [hi] at hd
            cases hd
            rw [hroute] at hroute'
            cases hroute'
        · obtain ⟨c, r, hc, _⟩ := hr.login
          rw [hi] at hc
          cases hc
  · intro p l r hm
    rw [h.db]
    exact hb.answered p l r (h.answered_sub hw p _ hm)

/-! ### Agreement in quiescent worlds -/

/-- The hash carries the host and port of process `p`. -/
def Carries (p : Pid) (fields : List (Str × Str)) : Prop :=
  fieldOf fields ServerHostKey = (appInfo p).serverHost ∧
    fieldOf fields ServerPortKey = (appInfo p).serverPort

theorem carries_record (p : Pid) (user : User) :
    Carries p user.record ↔ user.appInfo = appInfo p := by
  have hhost : fieldOf user.record ServerHostKey = user.serverHost := rfl
  have hport : fieldOf user.record ServerPortKey = user.serverPort := rfl
  rw [Carries, hhost, hport]
  constructor
  · intro ⟨ha, hb⟩
    simp only [User.appInfo, ha, hb]
  · intro h
    rw [← h]
    exact ⟨rfl, rfl⟩

theorem carries_room (p : Pid) (n : ℕ) : ¬ Carries p [(RoomIdKey, natText n)] := by
  intro h
  have hnil : fieldOf [(RoomIdKey, natText n)] ServerHostKey = [] := rfl
  rw [Carries, hnil] at h
  cases h.1

structure SessionsAgree (w : World) : Prop where
  records : ∀ p k, (∃ fields, w.db.get k = some (.hash fields) ∧ Carries p fields) ↔
    ∃ s user, (w.procs p).userList.get s = some user ∧ k = user.key
  single : ∀ s ∈ w.socketIds, ∀ u v, w.db.get (uniquePattern u s) ≠ none →
    w.db.get (uniquePattern v s) ≠ none → u = v
  identity : ∀ p k fields, IsOnlineKey k → w.db.get k = some (.hash fields) →
    ((w.procs p).getUserWithRedis fields).userId = fieldOf fields UserIdKey

theorem WF.record_owner {w : World} (hw : WF w) {u s : Str} (hs : s ∈ w.socketIds)
    (h : w.db.get (uniquePattern u s) ≠ none) : ∃ p, w.own p s := by
  obtain ⟨value, hv⟩ := Option.ne_none_iff_exists'.mp h
  obtain ⟨user, p, hp, hk, _⟩ := entry_online w.own w.db hw.db (IsOnlineKey.user u s) hv
  have hinj := uniquePattern_inj u user.userId s user.socketId (hw.shape s hs)
    (hw.shape _ (hw.ids p _ hp.1)) hk
  rw [hinj.2]
  exact ⟨p, hp.1⟩

theorem sessionsAgree_of_quiet {w : World} (hw : WF w) (hn : Named w) (ht : Tracked w)
    (hb : Backed w) (hquiet : Quiescent w) : SessionsAgree w := by
  refine ⟨?_, ?_, ?_⟩
  · intro p k
    constructor
    · rintro ⟨fields, hk, hcarry⟩
      rcases hw.db k _ hk with ⟨user, q, hq, rfl, hv⟩ | ⟨n, _, hv⟩ | ⟨_, _, _, hv⟩ | ⟨_, _, hv⟩
      · cases hv
        have hqp : q = p := appInfo_injective (hq.2.symm.trans ((carries_record p user).mp hcarry))
        subst hqp
        have hrec : w.db.get (uniquePattern user.userId user.socketId) ≠ none :=
          fun hnone => Option.some_ne_none _ (hk.symm.trans hnone)
        obtain ⟨hsent, hans, _⟩ := hquiet q
        rcases ht q user.socketId user.userId hq.1 hrec with hin | ⟨l, r, hm, _⟩ | ⟨gone, hm, _⟩
        · obtain ⟨u, hu⟩ := Option.ne_none_iff_exists'.mp hin
          have hname := hn q user.socketId u.userId user.userId hq.1 (.user u hu) (.record _ hrec)
          refine ⟨user.socketId, u, hu, ?_⟩
          rw [User.key, User.key, hname, (hw.users q _ u hu).1]
        · rw [hans] at hm
          cases hm
        · rw [hsent] at hm
          cases hm
      · cases hv
        exact absurd hcarry (carries_room p n)
      · cases hv
      · cases hv
    · rintro ⟨s, user, hu, hk⟩
      subst hk
      obtain ⟨hsock, hloc⟩ := hw.users p s user hu
      obtain ⟨value, hv⟩ := Option.ne_none_iff_exists'.mp (hb.user p s user hu).1
      obtain ⟨rec, q, hq, hkey, rfl⟩ := entry_online w.own w.db hw.db (IsOnlineKey.user _ _) hv
      have hs := (hw.key_inj hq.1 hloc.1.1 hkey.symm).2
      have hqo := hq.1
      rw [hs] at hqo
      have hqp := hw.owner q p _ hqo hloc.1.1
      subst hqp
      exact ⟨rec.record, hv, (carries_record q rec).mpr hq.2⟩
  · intro s hs u v hu hv
    obtain ⟨p, hp⟩ := hw.record_owner hs hu
    exact hn p s u v hp (.record u hu) (.record v hv)
  · intro p k fields hk hv
    obtain ⟨rec, q, hq, rfl, hrec⟩ := entry_online w.own w.db hw.db hk hv
    cases hrec
    rw [getUserWithRedis_record]
    cases hu : (w.procs p).userList.get rec.socketId with
    | none => rfl
    | some u =>
      have hrec : w.db.get (uniquePattern rec.userId rec.socketId) ≠ none :=
        fun hnone => Option.some_ne_none _ (hv.symm.trans hnone)
      obtain ⟨hsock, hloc⟩ := hw.users p _ u hu
      have hown : w.own p rec.socketId := hsock ▸ hloc.1.1
      exact hn p rec.socketId u.userId rec.userId hown (.user u hu) (.record _ hrec)

/-- A run in which overlapping logins agree, nobody is logged out during a login
and no command fails. -/
def Orderly (w : World) (e : Event) : Prop := NoFailure e ∧ LoginsAgree w e ∧ LogoutWaits w e

instance (w : World) (e : Event) : Decidable (Orderly w e) :=
  inferInstanceAs (Decidable (_ ∧ _ ∧ _))

theorem orderly_invariant {w : World} (h : Run.Reach step Orderly World.initial w) :
    WF w ∧ AllLive w ∧ Named w ∧ Tracked w ∧ Backed w := by
  refine Run.Reach.invariant (fun w => WF w ∧ AllLive w ∧ Named w ∧ Tracked w ∧ Backed w) ?_ ?_ h
  · refine ⟨WF.initial, ?_, ?_, ?_, ?_, ?_, ?_⟩
    · intro p s ho
      cases ho
    · intro p s a b ho
      exact absurd rfl ho
    · intro p s u ho
      exact absurd rfl ho
    · intro p s user hu
      cases hu
    · intro p s l hl
      obtain ⟨⟨c, hc, _⟩, _⟩ := hl
      cases hc
    · intro p l r hm
      cases hm
  · intro v e v' ⟨hw, hl, hn, ht, hb⟩ ⟨hfail, hagree, hwait⟩ hs
    rcases step_cases v v' e hs with ⟨q, c, r, hx⟩ | ⟨q, i, x, hx⟩
    · exact ⟨hw.step hs, hl.step hw hs, hn.executed hw hx, ht.executed hw hn hfail hx,
        hb.executed hw hfail hx⟩
    · exact ⟨hw.step hs, hl.step hw hs, hn.handled hw hl hagree hx, ht.handled hw hx,
        hb.handled hw hl hagree hwait hx⟩

theorem sessions_agree (w : World) (hreach : Run.Reach step Orderly World.initial w)
    (hquiet : Quiescent w) : SessionsAgree w := by
  obtain ⟨hw, _, hn, ht, hb⟩ := orderly_invariant hreach
  exact sessionsAgree_of_quiet hw hn ht hb hquiet

/-- Two logins in flight together on one connection. -/
def overlapTrace (u v : Str) : List Event :=
  [.connect 0 ['A'] 1, .message 0 (socketIdOf ['A']) (loginRequest u) 2,
    .message 0 (socketIdOf ['A']) (loginRequest v) 3,
    .exec 0 (.done []), .exec 0 (.done []), .reply 0, .reply 0,
    .exec 0 (.done []), .exec 0 (.done []), .reply 0, .reply 0,
    .exec 0 (.done []), .exec 0 (.done []), .reply 0, .reply 0]

theorem sessions_agree_same_user :
    SessionsAgree (Run.ends step World.initial (overlapTrace ['u'] ['u'])) :=
  sessions_agree _ (Run.reach_of_decide (overlapTrace ['u'] ['u']) World.initial (by decide +kernel))
    (quiescent_ends (overlapTrace ['u'] ['u']) _ (Run.runs_ends (by decide +kernel))
      (by decide +kernel))

theorem two_identities_on_one_connection :
    ¬ ∀ w, Run.Reach step (fun _ e => NoFailure e) World.initial w → Quiescent w →
      SessionsAgree w := by
  intro hall
  have hreach : Run.Reach step (fun _ e => NoFailure e) World.initial
      (Run.ends step World.initial (overlapTrace ['u'] ['v'])) :=
    Run.reach_of_decide (overlapTrace ['u'] ['v']) World.initial (by decide +kernel)
  have hquiet : Quiescent (Run.ends step World.initial (overlapTrace ['u'] ['v'])) :=
    quiescent_ends (overlapTrace ['u'] ['v']) _ (Run.runs_ends (by decide +kernel))
      (by decide +kernel)
  have hone := (hall _ hreach hquiet).single (socketIdOf ['A']) (by decide +kernel) ['u'] ['v']
  have hu : ((Run.ends step World.initial (overlapTrace ['u'] ['v'])).db.get
      (uniquePattern ['u'] (socketIdOf ['A']))).isSome = true := by decide +kernel
  have hv : ((Run.ends step World.initial (overlapTrace ['u'] ['v'])).db.get
      (uniquePattern ['v'] (socketIdOf ['A']))).isSome = true := by decide +kernel
  have heq := hone (Option.isSome_iff_ne_none.mp hu) (Option.isSome_iff_ne_none.mp hv)
  cases heq

end NodeServer

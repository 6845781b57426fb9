import NodeServer.Proof.Agreement
import NodeServer.Proof.Forwarding
import NodeServer.Proof.LoginGate

/-! # One turn of the loop that sends a notice

`NoticeSender.send` writes to a session of its own process and forwards to the
router of any other. A session that can no longer receive is logged out by its own
process only. -/

namespace NodeServer

open DBModelKeys

/-! ### The user a process makes of a record -/

section

variable {w : World} {p q : Pid} {k : Str} {fields : List (Str × Str)}

/- The record a process with these address fields has written. -/
theorem WF.record_user (hw : WF w) (hrec : OnlineRecord w.db k fields) (howner : Carries p fields) :
    ∃ rec : User, fields = rec.record ∧ k = rec.key ∧ UserOf w.own p rec := by
  obtain ⟨rec, o, hof, hk, hv⟩ := entry_online w.own w.db hw.db hrec.1 hrec.2
  have hfields : fields = rec.record := Store.Value.hash.inj hv
  rw [hfields, carries_record] at howner
  have hop : o = p := appInfo_injective (hof.2.symm.trans howner)
  exact ⟨rec, hfields, hk, hop ▸ hof⟩

/-- What another process does for it is to forward the notice. -/
theorem WF.sendOne_remote (hw : WF w) {rec : User} (hof : UserOf w.own p rec) (hq : q ≠ p)
    (x : Proc) (hx : x.userList = (w.procs q).userList) (notice : Notice) :
    x.sendOne q notice (x.getUserWithRedis rec.record) =
      x.emit ⟨appInfo p, rec.socketId, notice⟩ := by
  have hnone : x.userList.get rec.socketId = none := by
    rw [hx]
    cases hu : (w.procs q).userList.get rec.socketId with
    | none => rfl
    | some user =>
      obtain ⟨hs, hloc⟩ := hw.users q _ user hu
      have howns := hloc.1.1
      rw [hs] at howns
      exact absurd (hw.owner q p _ howns hof.1) hq
  have hne : appInfo p ≠ appInfo q := fun he => hq (appInfo_injective he).symm
  have happ : ({ rec with ref := x.nextRef, websocket := false } : User).appInfo = appInfo p := hof.2
  rw [getUserWithRedis_record, hnone]
  simp only [Proc.sendOne, happ, hne, if_false]

end

/-! ### A session that can receive -/

theorem onPacket_noticeId (x : Proc) (packet : Packet) (user : User)
    (hu : x.userList.get packet.socketId = some user) :
    (x.onPacket packet).noticeId = (x.bumpNotice user).noticeId := by
  have huser : x.getUserWithSocket packet.socketId = some user := hu
  simp only [Proc.onPacket, huser, Proc.wsSend]
  by_cases hopen : (x.bumpNotice user).ws user.socketId = some .opened
  · simp only [hopen, if_true]
    cases packet.notice.isKick with
    | true => rfl
    | false => rfl
  · simp only [hopen, if_false]

/- One turn of the loop of `NoticeSender.send` on process `p`, for a record. -/
def World.sentBy (w : World) (p : Pid) (notice : Notice) (fields : List (Str × Str)) : Proc :=
  (w.procs p).sendOne p notice ((w.procs p).getUserWithRedis fields)

/- User u of connection A. -/
def onlineUser : User := createUserWithLogin 0 0 ['u'] (socketIdOf ['A']) (natText 1) (natText 2)

/- The tables of a world with nothing in flight, watched for exceptions. -/
def World.calm (w : World) : World :=
  { w with procs := fun p => { (w.procs p).alone with uncaught := false } }

/- A notice is attempted on process `q`, and everything it triggers is done. -/
structure Attempted (w : World) (q : Pid) (notice : Notice) (fields : List (Str × Str)) (v : World) :
    Prop where
  run : Run.Reach step (fun _ e => e.internal = true)
    (w.calm.setProc q (w.calm.sentBy q notice fields)) v
  done : ∀ r, (v.procs r).calls = [] ∧ (v.procs r).outbox = []

/- No exception has escaped, and the session is gone. -/
structure Cleaned (v : World) (p : Pid) (k s : Str) : Prop where
  caught : ∀ r, (v.procs r).uncaught = false
  record : v.db.get k = none
  entry : (v.procs p).userList.get s = none

theorem sendOne_fails (p : Pid) (notice : Notice) (user : User) (x : Proc)
    (happ : user.appInfo = appInfo p) (hdead : ¬ x.Sendable user) :
    x.sendOne p notice user = (x.bumpNotice user).logout user := by
  simp only [Proc.sendOne, happ, if_true, Proc.noticeSend]
  cases hweb : user.websocket with
  | false => simp
  | true =>
    have hshut : (x.bumpNotice user).ws user.socketId ≠ some .opened := fun ho => hdead ⟨hweb, ho⟩
    simp [Proc.wsSend, hshut]

/- Process `p` has one call in flight and nothing else happens. -/
structure OneCall (w : World) (p : Pid) (c : Call) : Prop where
  sent : (w.procs p).sent = [c]
  answered : (w.procs p).answered = []
  outbox : ∀ q, (w.procs q).outbox = []
  others : ∀ q, q ≠ p → (w.procs q).calls = []

/- The call of `p` is executed. -/
def World.executed (w : World) (p : Pid) (c : Call) (r : Store.Reply) : World :=
  { w.setProc p { w.procs p with sent := [], answered := [(c, r)] } with db := (c.txn.run w.db).1 }

/- Its callback, which does nothing, has run. -/
def World.served (w : World) (p : Pid) (c : Call) : World :=
  { w.setProc p { w.procs p with sent := [] } with db := (c.txn.run w.db).1 }

section

variable {w v : World} {p : Pid} {c : Call}

theorem OneCall.first (h : OneCall w p c) {e : Event} (he : e.internal = true)
    (hs : step w e = some v) : ∃ r, v = w.executed p c r := by
  have hidle : ∀ q, q ≠ p → (w.procs q).answered = [] ∧ (w.procs q).sent = [] := by
    intro q hq
    simpa [Proc.calls] using h.others q hq
  cases e with
  | exec q outcome =>
    cases outcome with
    | failed message => cases he
    | done order =>
      by_cases hq : q = p
      · subst hq
        simp only [step, execStep, h.sent, h.answered, List.nil_append, Option.map_eq_some_iff] at hs
        obtain ⟨r, _, rfl⟩ := hs
        exact ⟨r, rfl⟩
      · simp [step, execStep, (hidle q hq).2] at hs
  | reply q =>
    have hans : (w.procs q).answered = [] := by
      by_cases hq : q = p
      · rw [hq]
        exact h.answered
      · exact (hidle q hq).1
    simp [step, inputOf, hans] at hs
  | deliver q n t => simp [step, inputOf, h.outbox q] at hs
  | _ => cases he

theorem OneCall.second (h : OneCall w p c) (hquiet : ∀ r (x : Proc), x.onReply p c r = x)
    {e : Event} (he : e.internal = true) {r : Store.Reply}
    (hs : step (w.executed p c r) e = some v) : v = w.served p c := by
  have hother : ∀ q, q ≠ p → (w.executed p c r).procs q = w.procs q := by
    intro q hq
    exact setProc_ne w p q _ hq
  have hself : (w.executed p c r).procs p =
      { w.procs p with sent := [], answered := [(c, r)] } := setProc_self w p _
  have hidle : ∀ q, q ≠ p → (w.procs q).answered = [] ∧ (w.procs q).sent = [] := by
    intro q hq
    simpa [Proc.calls] using h.others q hq
  cases e with
  | exec q outcome =>
    have hsent : ((w.executed p c r).procs q).sent = [] := by
      by_cases hq : q = p
      · rw [hq, hself]
      · rw [hother q hq]
        exact (hidle q hq).2
    cases outcome with
    | _ => simp [step, execStep, hsent] at hs
  | reply q =>
    by_cases hq : q = p
    · subst hq
      simp only [step, inputOf, hself, Option.map_some, takeOff, List.tail_cons, Option.some.injEq,
        setProc_setProc, setProc_self, react, hquiet] at hs
      rw [← hs]
      have hans := h.answered
      simp only [World.executed, World.served, World.setProc, World.mk.injEq, true_and, and_true]
      funext t
      by_cases ht : t = q
      · subst ht
        simp [hans]
      · simp [ht]
    · have hans : ((w.executed p c r).procs q).answered = [] := by
        rw [hother q hq]
        exact (hidle q hq).1
      simp [step, inputOf, hans] at hs
  | deliver q n t =>
    have hout : ((w.executed p c r).procs q).outbox = [] := by
      by_cases hq : q = p
      · rw [hq, hself]
        exact h.outbox p
      · rw [hother q hq]
        exact h.outbox q
    simp [step, inputOf, hout] at hs
  | _ => cases he

theorem OneCall.served_idle (h : OneCall w p c) (q : Pid) :
    ((w.served p c).procs q).calls = [] ∧ ((w.served p c).procs q).outbox = [] := by
  by_cases hq : q = p
  · subst hq
    have hself : (w.served q c).procs q = { w.procs q with sent := [] } := setProc_self w q _
    rw [hself]
    exact ⟨by simp [Proc.calls, h.answered], h.outbox q⟩
  · have hother : (w.served p c).procs q = w.procs q := setProc_ne w p q _ hq
    rw [hother]
    exact ⟨h.others q hq, h.outbox q⟩

/-- However its call is served, the process ends up in one state. -/
theorem OneCall.served_iff (h : OneCall w p c) (hquiet : ∀ r (x : Proc), x.onReply p c r = x)
    (hone : ∃ cmd, c.txn = .one cmd) :
    (Run.Reach step (fun _ e => e.internal = true) w v ∧
      ∀ q, (v.procs q).calls = [] ∧ (v.procs q).outbox = []) ↔ v = w.served p c := by
  constructor
  · rintro ⟨hrun, hdone⟩
    have hinv := hrun.invariant
      (fun u => u = w ∨ (∃ r, u = w.executed p c r) ∨ u = w.served p c) (Or.inl rfl) (by
        rintro u e u' (rfl | ⟨r, rfl⟩ | rfl) he hs
        · exact Or.inr (Or.inl (h.first he hs))
        · exact Or.inr (Or.inr (h.second hquiet he hs))
        · have hidle := h.served_idle
          rw [idle_step _ e he (fun q => (hidle q).1) (fun q => (hidle q).2)] at hs
          cases hs)
    rcases hinv with rfl | ⟨r, rfl⟩ | rfl
    · have hcalls := (hdone p).1
      simp [Proc.calls, h.sent] at hcalls
    · have hcalls := (hdone p).1
      simp [Proc.calls, World.executed, World.setProc] at hcalls
    · rfl
  · rintro rfl
    refine ⟨?_, h.served_idle⟩
    obtain ⟨cmd, htxn⟩ := hone
    have horder : (c.txn.run w.db).2.inOrder (cmd.run w.db).2.elements = some (cmd.run w.db).2 := by
      rw [htxn]
      exact Store.run_inOrder cmd w.db
    have hserved := serve_call w p c [] _ _ h.sent h.answered horder
    rw [hquiet] at hserved
    refine Run.reach_of_runs _ _ _ ?_ hserved
    intro e he _
    simp only [List.mem_cons, List.not_mem_nil, or_false] at he
    rcases he with rfl | rfl
    · rfl
    · rfl

end

section

variable {w : World} {p : Pid} {rec : User}

/- The user the owner finds for a record. -/
def World.found (w : World) (p : Pid) (rec : User) : User :=
  (w.calm.procs p).getUserWithRedis rec.record

theorem found_spec (hw : WF w) (hof : UserOf w.own p rec) :
    (w.found p rec).appInfo = appInfo p ∧ (w.found p rec).socketId = rec.socketId ∧
      (∀ user, (w.procs p).userList.get rec.socketId = some user → w.found p rec = user) ∧
      ((w.procs p).userList.get rec.socketId = none →
        (w.found p rec).websocket = false ∧ (w.found p rec).userId = rec.userId) := by
  unfold World.found
  rw [getUserWithRedis_record]
  have hlist : (w.calm.procs p).userList = (w.procs p).userList := rfl
  rw [hlist]
  cases hu : (w.procs p).userList.get rec.socketId with
  | none =>
    refine ⟨hof.2, rfl, ?_, fun _ => ⟨rfl, rfl⟩⟩
    intro user h
    cases h
  | some user =>
    obtain ⟨hs, hloc⟩ := hw.users p _ user hu
    refine ⟨hloc.1.2, hs, ?_, ?_⟩
    · intro user' h
      exact Option.some.inj h
    · intro h
      cases h

/- The owner's process after a send that failed. -/
def World.loggedOut (w : World) (p : Pid) (rec : User) : World :=
  w.calm.setProc p (((w.calm.procs p).bumpNotice (w.found p rec)).logout (w.found p rec))

theorem sentBy_owner (hw : WF w) (hof : UserOf w.own p rec) (notice : Notice)
    (hdead : (w.procs p).ws rec.socketId ≠ some .opened ∨
      (w.procs p).userList.get rec.socketId = none) :
    w.calm.sentBy p notice rec.record =
      ((w.calm.procs p).bumpNotice (w.found p rec)).logout (w.found p rec) := by
  obtain ⟨happ, hs, _, himage⟩ := found_spec hw hof
  have hfails : ¬ (w.calm.procs p).Sendable (w.found p rec) := by
    rintro ⟨hweb, hopen⟩
    rw [hs] at hopen
    rcases hdead with hshut | hnone
    · exact hshut hopen
    · rw [(himage hnone).1] at hweb
      cases hweb
  exact sendOne_fails p notice (w.found p rec) (w.calm.procs p) happ hfails

theorem loggedOut_oneCall (w : World) (p : Pid) (rec : User) :
    OneCall (w.loggedOut p rec) p (.logoutDel (w.found p rec)) := by
  have hself : (w.loggedOut p rec).procs p =
    ((w.calm.procs p).bumpNotice (w.found p rec)).logout (w.found p rec) := setProc_self _ p _
  have hother : ∀ q, q ≠ p → (w.loggedOut p rec).procs q = w.calm.procs q := by
    intro q hq
    exact setProc_ne _ p q _ hq
  refine ⟨by rw [hself]; rfl, by rw [hself]; rfl, ?_, ?_⟩
  · intro q
    by_cases hq : q = p
    · rw [hq, hself]
      rfl
    · rw [hother q hq]
      rfl
  · intro q hq
    rw [hother q hq]
    rfl

/-- An attempt on the owner ends with the record of the user it found deleted. -/
theorem attempted_owner (hw : WF w) (hof : UserOf w.own p rec) (notice : Notice)
    (hdead : (w.procs p).ws rec.socketId ≠ some .opened ∨
      (w.procs p).userList.get rec.socketId = none) (v : World) :
    Attempted w p notice rec.record v ↔
      v = (w.loggedOut p rec).served p (.logoutDel (w.found p rec)) := by
  rw [← (loggedOut_oneCall w p rec).served_iff (fun _ _ => rfl) ⟨_, rfl⟩, World.loggedOut,
    ← sentBy_owner hw hof notice hdead]
  constructor
  · intro h
    exact ⟨h.run, h.done⟩
  · intro h
    exact ⟨h.1, h.2⟩

/- A logout deletes the record under the key of its user. -/
theorem logout_cleaned_iff (w : World) (p : Pid) {x : Proc} (hx : x.uncaught = false) (user : User)
    (k : Str) (hk : w.db.get k ≠ none) :
    Cleaned ((w.calm.setProc p (x.logout user)).served p (.logoutDel user)) p k user.socketId ↔
      user.key = k := by
  have hdb : ((w.calm.setProc p (x.logout user)).served p (.logoutDel user)).db =
      (Store.del user.key w.db).1 := rfl
  constructor
  · intro hc
    by_contra hne
    have hstays := Store.run_frame (.del user.key) w.db k (by
      simp only [Store.Cmd.writes, List.mem_singleton]
      exact fun he => hne he.symm)
    have hgone := hc.record
    rw [hdb] at hgone
    exact hk (hstays.symm.trans hgone)
  · rintro rfl
    constructor
    · intro r
      by_cases hr : r = p
      · subst hr
        simp only [World.served, setProc_self]
        exact hx
      · simp only [World.served, setProc_ne _ _ _ _ hr]
        rfl
    · rw [hdb]
      exact Store.del_get _ _
    · simp only [World.served, setProc_self, Proc.logout, Proc.issue, Proc.delUser, Table.get_del,
        if_true]

theorem served_cleaned_iff (hw : WF w) (hof : UserOf w.own p rec)
    (hrec : w.db.get rec.key = some (.hash rec.record)) :
    Cleaned ((w.loggedOut p rec).served p (.logoutDel (w.found p rec))) p rec.key rec.socketId ↔
      (w.found p rec).userId = rec.userId := by
  obtain ⟨_, hs, _, _⟩ := found_spec hw hof
  have hkey : (w.found p rec).key = rec.key ↔ (w.found p rec).userId = rec.userId := by
    simp [User.key, uniquePattern, hs]
  have hcleaned := logout_cleaned_iff w p (x := (w.calm.procs p).bumpNotice (w.found p rec)) rfl
    (w.found p rec) rec.key (by rw [hrec]; simp)
  rw [hs] at hcleaned
  exact hcleaned.trans hkey

theorem setProc_same (w : World) (p : Pid) : w.setProc p (w.procs p) = w := by
  have hprocs : (fun q => if q = p then w.procs p else w.procs q) = w.procs := by
    funext q
    by_cases hq : q = p
    · simp [hq]
    · simp [hq]
  simp only [World.setProc, hprocs]

/-- The only notice emitted is delivered. -/
theorem deliver_only (w : World) {p q : Pid} (hq : q ≠ p) (packet : Packet)
    (hurl : packet.url = appInfo p) (hout : (w.procs q).outbox = []) :
    step (w.setProc q ((w.procs q).emit packet)) (.deliver q 0 p) =
      some (w.setProc p ((w.procs p).onPacket packet)) := by
  have hemitted : (w.procs q).emit packet = { w.procs q with outbox := [packet] } := by
    simp only [Proc.emit, hout, List.nil_append]
  have hback : ({ w.procs q with outbox := [] } : Proc) = w.procs q := by rw [← hout]
  have hpq : p ≠ q := fun he => hq he.symm
  have hrest : takeOff (w.setProc q ((w.procs q).emit packet)) (.deliver q 0 p) = w := by
    simp only [takeOff, setProc_self, setProc_setProc, hemitted, List.eraseIdx_zero, List.tail_cons,
      hback]
    exact setProc_same w q
  have hin : inputOf (w.setProc q ((w.procs q).emit packet)) (.deliver q 0 p) =
      some (p, .packet packet) := by
    simp [inputOf, setProc_self, hemitted, hurl]
  simp only [step, hin, Option.map_some, hrest]
  rfl

/-- An attempt on another process leaves the record behind. -/
theorem attempted_remote (hw : WF w) (hof : UserOf w.own p rec) {q : Pid} (hq : q ≠ p)
    (notice : Notice) (hrec : w.db.get rec.key = some (.hash rec.record)) :
    ∃ v, Attempted w q notice rec.record v ∧ ¬ Cleaned v p rec.key rec.socketId := by
  let packet : Packet := ⟨appInfo p, rec.socketId, notice⟩
  have hsent : w.calm.sentBy q notice rec.record = (w.calm.procs q).emit packet :=
    hw.sendOne_remote hof hq (w.calm.procs q) rfl notice
  have hstep := deliver_only w.calm hq packet rfl rfl
  have hemits := Emits.onPacket (w.calm.procs p) packet
  refine ⟨w.calm.setProc p ((w.calm.procs p).onPacket packet), ⟨?_, ?_⟩, ?_⟩
  · rw [hsent]
    exact .tail _ .refl rfl hstep
  · intro r
    by_cases hr : r = p
    · subst hr
      rw [setProc_self, Proc.calls, hemits.sent, hemits.answered, hemits.outbox]
      exact ⟨rfl, rfl⟩
    · rw [setProc_ne _ _ _ _ hr]
      exact ⟨rfl, rfl⟩
  · intro hc
    have hgone : w.db.get rec.key = none := hc.record
    rw [hrec] at hgone
    cases hgone

end

/-- A dead session is cleaned up after a failed notice exactly when its own
process has sent the notice and knows the session by the user of its record. -/
theorem dead_session_iff (w : World) (p q : Pid) (notice : Notice) (k : Str)
    (fields : List (Str × Str)) (hreach : Reachable w) (hrec : OnlineRecord w.db k fields)
    (howner : Carries p fields)
    (hdead : (w.procs p).ws (fieldOf fields SocketIdKey) ≠ some .opened ∨
      (w.procs p).userList.get (fieldOf fields SocketIdKey) = none) :
    (∀ v, Attempted w q notice fields v → Cleaned v p k (fieldOf fields SocketIdKey)) ↔
      q = p ∧ ∀ user, (w.procs p).userList.get (fieldOf fields SocketIdKey) = some user →
        user.userId = fieldOf fields UserIdKey := by
  obtain ⟨hw, _⟩ := allLive_reach hreach
  obtain ⟨rec, rfl, rfl, hof⟩ := hw.record_user hrec howner
  rw [fieldOf_record_socketId] at hdead ⊢
  have hid : fieldOf rec.record UserIdKey = rec.userId := rfl
  rw [hid]
  constructor
  · intro hall
    by_cases hq : q = p
    · subst hq
      have hc := hall _ ((attempted_owner hw hof notice hdead _).mpr rfl)
      refine ⟨rfl, ?_⟩
      intro user hu
      rw [← (found_spec hw hof).2.2.1 user hu]
      exact (served_cleaned_iff hw hof hrec.2).mp hc
    · obtain ⟨v, hv, hnot⟩ := attempted_remote hw hof hq notice hrec.2
      exact absurd (hall v hv) hnot
  · rintro ⟨rfl, huser⟩ v hv
    rw [(attempted_owner hw hof notice hdead v).mp hv]
    refine (served_cleaned_iff hw hof hrec.2).mpr ?_
    obtain ⟨_, _, hentry, himage⟩ := found_spec hw hof
    cases hu : (w.procs q).userList.get rec.socketId with
    | none => exact (himage hu).2
    | some user =>
      rw [hentry user hu]
      exact huser user hu

/-! ### A notice to a connection that is closing -/

def closingWorld : World :=
  Run.ends step World.initial (onlineTrace ['u'] ++ [.peerClose 0 (socketIdOf ['A'])])

theorem closingWorld_record : Reachable closingWorld ∧
    OnlineRecord closingWorld.db onlineUser.key onlineUser.record ∧ Carries 0 onlineUser.record :=
  ⟨Run.reach_ends _ (by decide +kernel), ⟨IsOnlineKey.user _ _, rfl⟩,
    (carries_record 0 onlineUser).mpr (by decide)⟩

theorem dead_session_on_owner :
    (∀ v, Attempted closingWorld 0 (.roomIn ['v']) onlineUser.record v →
      Cleaned v 0 onlineUser.key (fieldOf onlineUser.record SocketIdKey)) ↔
    (0 : Pid) = 0 ∧ ∀ user,
      (closingWorld.procs 0).userList.get (fieldOf onlineUser.record SocketIdKey) = some user →
      user.userId = fieldOf onlineUser.record UserIdKey :=
  dead_session_iff closingWorld 0 0 (.roomIn ['v']) onlineUser.key onlineUser.record
    closingWorld_record.1 closingWorld_record.2.1 closingWorld_record.2.2 (Or.inl (by decide +kernel))

theorem dead_session_left :
    ¬ ∀ (w : World) (p q : Pid) (notice : Notice) (k : Str) (fields : List (Str × Str)),
      Reachable w → OnlineRecord w.db k fields → Carries p fields →
      ((w.procs p).ws (fieldOf fields SocketIdKey) ≠ some .opened ∨
        (w.procs p).userList.get (fieldOf fields SocketIdKey) = none) →
      ∀ v, Attempted w q notice fields v → Cleaned v p k (fieldOf fields SocketIdKey) := by
  intro hall
  obtain ⟨hreach, hrec, howner⟩ := closingWorld_record
  have hw := (allLive_reach hreach).1
  have hof : UserOf closingWorld.own 0 onlineUser := by
    obtain ⟨rec, heq, _, hof⟩ := hw.record_user hrec howner
    have hs : onlineUser.socketId = rec.socketId := by
      rw [← fieldOf_record_socketId, heq, fieldOf_record_socketId]
    exact ⟨by rw [hs]; exact hof.1, (carries_record 0 onlineUser).mp howner⟩
  obtain ⟨v, hv, hnot⟩ := attempted_remote hw hof (q := 1) (by decide) (.roomIn ['v']) hrec.2
  exact hnot (hall closingWorld 0 1 _ _ _ hreach hrec howner (Or.inl (by decide +kernel)) v hv)

end NodeServer

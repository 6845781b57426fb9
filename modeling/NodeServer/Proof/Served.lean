import NodeServer.Proof.Directory
import NodeServer.Proof.Delivery
import NodeServer.Proof.FanOut
import NodeServer.Proof.Rest

/-! # Requests served to their end

One request is made of servers that are at rest, and they go on, without further
requests and without errors of Redis, until they are at rest again. Unless it is a
login or a logout, no connection closes meanwhile, so that only calls, callbacks and
packets are left to follow. -/

namespace NodeServer

open DBModelKeys

/- The servers go on by themselves, and Redis answers. -/
def Event.smooth : Event → Bool
  | .exec _ (.done _) | .reply _ | .deliver _ _ _ | .wsClose _ _ => true
  | _ => false

/-! ### Nothing closes -/

/- No connection is closing, and nothing is under way that could close one. -/
structure NoCloses (w : World) : Prop where
  logins : ∀ q, ∀ c ∈ (w.procs q).calls, c.login = none
  kicks : ∀ q, ∀ packet ∈ (w.procs q).outbox, packet.notice.isKick = false
  sockets : ∀ q s, (w.procs q).ws s ≠ some .closing

section

variable {w v : World} {e : Event} {p : Pid} {i : Input} {x : Proc}

theorem NoCloses.executed {c : Call} {r : Store.Reply} (h : NoCloses w) (hx : Executed w v e p c r) :
    NoCloses v where
  logins := by
    intro q c' hc'
    rw [hx.calls q] at hc'
    exact h.logins q c' hc'
  kicks := by
    intro q packet hp
    have hout : (v.procs q).outbox = (w.procs q).outbox := by
      by_cases hq : q = p
      · subst hq
        exact hx.outbox
      · rw [hx.others q hq]
    rw [hout] at hp
    exact h.kicks q packet hp
  sockets := by
    intro q s
    rw [hx.ws q s]
    exact h.sockets q s

/- No lookup of a login ends with the input. -/
theorem NoCloses.resolved (h : NoCloses w) (hx : Handled w v e p i x) {next : LookupFor}
    {userList : List User} (hr : Resolves i x next userList) : next.login = none := by
  obtain ⟨c, r, hi, hc⟩ := hr.login
  rw [← hc]
  exact h.logins p c (hx.reply_call hi)

/- Callbacks and packets are all that is left. -/
def Input.internal : Input → Bool
  | .reply _ _ | .packet _ => true
  | _ => false

theorem Handled.internal (hx : Handled w v e p i x) (he : e.internal = true) :
    i.internal = true := by
  have harr := hx.arrives
  cases i with
  | connect t now =>
    obtain ⟨suffix, rfl, _⟩ := harr
    cases he
  | reply c r => rfl
  | packet packet => rfl
  | _ =>
    rw [harr.1] at he
    cases he

theorem NoCloses.kept (h : NoCloses w) (hw : WF w) (hx : Handled w v e p i x)
    (hi : i.internal = true) (s : Str) : (v.procs p).ws s ≠ some .closing := by
  have hbefore : x.ws s ≠ some .closing := by
    rw [Proc.ws, hx.conns]
    exact h.sockets p s
  intro hclosing
  cases hafter : (v.procs p).conns.get s with
  | none => simp [Proc.ws, hafter] at hclosing
  | some d =>
    have hd : d.ws = .closing := by simpa [Proc.ws, hafter] using hclosing
    obtain ⟨outs, heff⟩ := hx.effect_issued hw
    have hstep := heff.conns s
    rw [hafter] at hstep
    cases hget : x.conns.get s with
    | none =>
      rw [hget] at hstep
      obtain ⟨now, rfl, _⟩ := hstep
      cases hi
    | some c =>
      rw [hget] at hstep
      have hws : x.ws s = some c.ws := by simp [Proc.ws, hget]
      rcases hstep.1 with (hle | ⟨hopen, _⟩) | ⟨rfl, _⟩ | ⟨rfl, _⟩
      · rw [hws, ← hle, hd] at hbefore
        exact hbefore rfl
      · -- an open connection has begun to close
        have hnot : (react p i x).ws s ≠ some .opened := by
          rw [← hx.after, hclosing]
          decide
        have hne : i ≠ .wsClose s := by
          rintro rfl
          cases hi
        rw [hopen] at hws
        cases react_closes p i x s (hx.keyed hw) hws hnot hne with
        | peer heq =>
          rw [heq] at hi
          cases hi
        | failed heq =>
          rw [heq] at hi
          cases hi
        | logout req now asks _ =>
          rw [asks.1] at hi
          cases hi
        | login l userList user resolves _ _ => cases h.resolved hx resolves
        | kick packet heq kicks _ =>
          have harr := hx.arrives
          rw [heq] at harr
          obtain ⟨_, q, n, _, hp⟩ := harr
          rw [h.kicks q packet hp] at kicks
          cases kicks
      · cases hi
      · cases hi

theorem NoCloses.handled (h : NoCloses w) (hreach : Reachable w) (hx : Handled w v e p i x)
    (hi : i.internal = true) : NoCloses v := by
  have hw := WF.initial.reach hreach
  obtain ⟨tr, hpath, _⟩ := hreach.path
  have ht := caused_path hpath
  obtain ⟨outs, heff⟩ := hx.effect_issued hw
  constructor
  · intro q c hc
    by_cases hq : q = p
    · subst hq
      obtain ⟨hbefore, hafter⟩ := hx.calls_issued hw
      rw [hafter] at hc
      rcases List.mem_append.mp hc with hc | hc
      · exact h.logins q c (hbefore ▸ List.mem_append_right _ hc)
      · cases hl : c.login with
        | none => rfl
        | some l =>
          rcases (heff.origin c hc).login hl with ⟨c₀, r, heq, hc₀⟩ | ⟨req, now, asks, _⟩
          · rw [h.logins q c₀ (hx.reply_call heq)] at hc₀
            cases hc₀
          · rw [asks.1] at hi
            cases hi
    · obtain ⟨_, _, hsent, hans⟩ := hx.other_conns q hq
      simp only [Proc.calls, hsent, hans] at hc
      exact h.logins q c hc
  · intro q packet hp
    by_cases hq : q = p
    · subst hq
      rw [heff.outbox] at hp
      rcases List.mem_append.mp hp with hp | hp
      · exact h.kicks q packet (hx.outbox packet hp)
      · obtain ⟨notice, after, userList, user, hr, _, _, rfl⟩ := heff.forwards packet hp
        cases hk : notice.isKick with
        | false => rfl
        | true =>
          obtain ⟨l, hl⟩ := ht.kickLogin hw hx hr hk
          rw [h.resolved hx hr] at hl
          cases hl
    · obtain ⟨outbox, hv, hsub⟩ := hx.others q hq
      rw [hv] at hp
      exact h.kicks q packet (hsub packet hp)
  · intro q s
    by_cases hq : q = p
    · subst hq
      exact h.kept hw hx hi s
    · rw [Proc.ws, (hx.other_conns q hq).1]
      exact h.sockets q s

/-- No close event can come in between. -/
theorem NoCloses.reach {m : World} (h : NoCloses m) (hreach : Reachable m)
    (hrun : Run.Reach step (fun _ e => e.smooth = true) m v) :
    NoCloses v ∧ Run.Reach step (fun _ e => e.internal = true) m v := by
  induction hrun with
  | refl => exact ⟨h, .refl⟩
  | @tail u v' e _ hok hs ih =>
    obtain ⟨hu, hto⟩ := ih
    have hreach' : Reachable u := hreach.trans (hto.mono fun _ _ _ => trivial)
    have he : e.internal = true := by
      cases e with
      | wsClose q s =>
        have hin : step u (.wsClose q s) = none := by
          simp [step, inputOf, hu.sockets q s]
        rw [hin] at hs
        cases hs
      | exec q outcome =>
        cases outcome with
        | done order => rfl
        | failed message => cases hok
      | reply q => rfl
      | deliver q n s => rfl
      | _ => cases hok
    refine ⟨?_, hto.tail e he hs⟩
    rcases step_cases u v' e hs with ⟨q, c, r, hx⟩ | ⟨q, i, x, hx⟩
    · exact hu.executed hx
    · exact hu.handled hreach' hx (hx.internal he)

end

/-! ### How it ends -/

/- What has come of a request when everything is at rest again: what Redis holds, the
notices each session has got, and the sessions that remain or have gone. -/
structure Ended (w v : World) (d : Directory) (notice : Notice) (due : User → ℕ)
    (gone : Str → Prop) : Prop where
  effect : directoryOf v.db = d
  told : ∀ q user, OnlineAt w q user → Receives w v notice q user.socketId (due user)
  silent : ∀ q t, (∀ user, OnlineAt w q user → user.socketId ≠ t) → Receives w v notice q t 0
  stays : ∀ q user, OnlineAt w q user → ¬ gone user.socketId → OnlineAt v q user
  others : ∀ q t, ¬ gone t → (v.procs q).userList.get t = (w.procs q).userList.get t ∧
    (v.procs q).ws t = (w.procs q).ws t
  left : ∀ q user, OnlineAt w q user → gone user.socketId →
    (v.procs q).userList.get user.socketId = none ∧ (v.procs q).ws user.socketId = some .closed

/- The servers come to rest after the event, and always with this result. -/
structure CarriedOut (w : World) (e : Event) (d : Directory) (notice : Notice) (due : User → ℕ)
    (gone : Str → Prop) : Prop where
  rests : ∃ m, step w e = some m ∧ ComesToRest m
  ended : ∀ m v, step w e = some m → Run.Reach step (fun _ e => e.smooth = true) m v →
    Quiescent v → Ended w v d notice due gone

/-! ### The one call in flight -/

/- The call has been executed and its callback has run. -/
def World.calledBack (m : World) (p : Pid) (c : Call) (r : Store.Reply) : World :=
  { m.setProc p (({ m.procs p with sent := [] } : Proc).onReply p c r) with
    db := (c.txn.run m.db).1 }

section

variable {m v : World} {p : Pid} {c : Call}

/- Nothing is under way but calls of `p`. -/
structure Alone (m : World) (p : Pid) : Prop where
  outbox : ∀ q, (m.procs q).outbox = []
  others : ∀ q, q ≠ p → (m.procs q).calls = []

theorem OneCall.alone (h : OneCall m p c) : Alone m p := ⟨h.outbox, h.others⟩

/-- Then what happens is that one of them is executed or called back. -/
theorem Alone.next (h : Alone m p) {e : Event} {u : World} (he : e.internal = true)
    (hs : step m e = some u) : e = .reply p ∨ ∃ order, e = .exec p (.done order) := by
  cases e with
  | exec q outcome =>
    obtain ⟨c', r, hx⟩ := exec_cases m u q outcome hs
    obtain ⟨order, heq, _⟩ := hx.internal_done he
    have hq : q = p := by
      by_contra hne
      have hmem := hx.mem_calls
      rw [h.others q hne] at hmem
      cases hmem
    exact Or.inr ⟨order, hq ▸ heq⟩
  | reply q =>
    obtain ⟨c', r, rest, hans, _⟩ := step_reply hs
    by_cases hq : q = p
    · exact Or.inl (hq ▸ rfl)
    · have hcalls := h.others q hq
      rw [Proc.calls, hans] at hcalls
      cases hcalls
  | deliver q n s =>
    obtain ⟨packet, hget, _⟩ := step_deliver hs
    rw [h.outbox q] at hget
    cases hget
  | _ => cases he

theorem Alone.executed {e : Event} {u : World} {r : Store.Reply} (h : Alone m p)
    (hx : Executed m u e p c r) : Alone u p where
  outbox := by
    intro q
    by_cases hq : q = p
    · rw [hq, hx.outbox, h.outbox]
    · rw [hx.others q hq, h.outbox]
  others := by
    intro q hq
    rw [hx.others q hq, h.others q hq]

/-- Nothing can happen before the call has been executed. -/
theorem OneCall.exec (h : OneCall m p c) {e : Event} {u : World} (he : e.internal = true)
    (hs : step m e = some u) : ∃ r, Executed m u e p c r := by
  rcases h.alone.next he hs with rfl | ⟨order, rfl⟩
  · obtain ⟨c', r, rest, hans, _⟩ := step_reply hs
    rw [h.answered] at hans
    cases hans
  · obtain ⟨c', r, hx⟩ := exec_cases m u p _ hs
    have hsent := hx.sent
    rw [h.sent] at hsent
    rw [(List.cons.inj hsent).1]
    exact ⟨r, hx⟩

/-- Then nothing can happen before its callback has run. -/
theorem OneCall.reply (h : OneCall m p c) {e e' : Event} {u z : World} {r : Store.Reply}
    (he : e.internal = true) (hu : step m e = some u) (hx : Executed m u e p c r)
    (he' : e'.internal = true) (hs : step u e' = some z) : z = m.calledBack p c r := by
  obtain ⟨order, rfl, _, hr⟩ := hx.internal_done he
  have hreply : e' = .reply p := by
    rcases (h.alone.executed hx).next he' hs with rfl | ⟨order', rfl⟩
    · rfl
    · obtain ⟨c', r', hx'⟩ := exec_cases u z p _ hs
      have hsent := hx.sent
      rw [h.sent, hx'.sent] at hsent
      cases hsent
  subst hreply
  have hserve := serve_call m p c [] order r h.sent h.answered hr
  simp only [Run.runs, hu, hs, Option.bind_some] at hserve
  exact Option.some.inj hserve

/-- A run that answers everything first serves the call. -/
theorem OneCall.calledBack (h : OneCall m p c)
    (hrun : Run.Reach step (fun _ e => e.internal = true) m v) (hv : (v.procs p).calls = []) :
    ∃ e u r, e.internal = true ∧ Executed m u e p c r ∧
      Run.Reach step (fun _ e => e.internal = true) m (m.calledBack p c r) ∧
      Run.Reach step (fun _ e => e.internal = true) (m.calledBack p c r) v := by
  rcases hrun.cases_head with rfl | ⟨e, u, he, hu, hrest⟩
  · rw [Proc.calls, h.sent, h.answered] at hv
    cases hv
  · obtain ⟨r, hx⟩ := h.exec he hu
    refine ⟨e, u, r, he, hx, ?_⟩
    rcases hrest.cases_head with rfl | ⟨e', z, he', hz, hrest'⟩
    · rw [Proc.calls, hx.answered, h.answered] at hv
      cases hv
    · rw [← h.reply he hu hx he' hz]
      exact ⟨.tail e' (.tail e .refl he hu) he' hz, hrest'⟩

end

/-! ### A call of servers at rest -/

theorem Quiescent.calls {v : World} (hv : Quiescent v) (p : Pid) : (v.procs p).calls = [] := by
  rw [Proc.calls, (hv p).1, (hv p).2.1]
  rfl

section

variable {w : World} {p : Pid} {c : Call}

def World.asking (w : World) (p : Pid) (c : Call) : World := w.setProc p ((w.procs p).issue c)

theorem asking_oneCall (hq : Quiescent w) : OneCall (w.asking p c) p c := by
  refine ⟨?_, ?_, ?_, ?_⟩
  · rw [World.asking, setProc_self, Proc.issue, (hq p).1]
    rfl
  · rw [World.asking, setProc_self]
    exact (hq p).2.1
  · intro q
    by_cases hne : q = p
    · rw [hne, World.asking, setProc_self]
      exact (hq p).2.2.1
    · rw [World.asking, setProc_ne w p q _ hne]
      exact (hq q).2.2.1
  · intro q hne
    rw [World.asking, setProc_ne w p q _ hne, Proc.calls, (hq q).1, (hq q).2.1]
    rfl

theorem asking_calledBack (hq : Quiescent w) (r : Store.Reply) : (w.asking p c).calledBack p c r =
    { w.setProc p ((w.procs p).onReply p c r) with db := (c.txn.run w.db).1 } := by
  have hback : ({ (w.asking p c).procs p with sent := [] } : Proc) = w.procs p := by
    rw [World.asking, setProc_self, Proc.issue, ← (hq p).1]
  unfold World.calledBack
  rw [hback, World.asking, setProc_setProc]
  rfl

theorem asking_noCloses (hq : Quiescent w) (hc : c.login = none) : NoCloses (w.asking p c) where
  logins := by
    intro q d hd
    by_cases hne : q = p
    · subst hne
      rw [World.asking, setProc_self, Proc.calls, Proc.issue, (hq q).1, (hq q).2.1] at hd
      rw [List.mem_singleton.mp hd]
      exact hc
    · rw [World.asking, setProc_ne w p q _ hne, Proc.calls, (hq q).1, (hq q).2.1] at hd
      cases hd
  kicks := by
    intro q packet hp
    have hout : ((w.asking p c).procs q).outbox = [] := (asking_oneCall hq).outbox q
    rw [hout] at hp
    cases hp
  sockets := by
    intro q s
    by_cases hne : q = p
    · subst hne
      rw [World.asking, setProc_self]
      exact (hq q).2.2.2 s
    · rw [World.asking, setProc_ne w p q _ hne]
      exact (hq q).2.2.2 s

/- A listing is answered, and the callback makes the next call. -/
theorem asking_next (hq : Quiescent w) {c' : Call} {r : Store.Reply}
    (hdb : (c.txn.run w.db).1 = w.db) (hnext : (w.procs p).onReply p c r = (w.procs p).issue c') :
    (w.asking p c).calledBack p c r = w.asking p c' := by
  rw [asking_calledBack hq, hdb, hnext]
  rfl

end

/-! ### The fan-out and what is done beside -/

/- The change of the members a call will make. -/
def Call.roomOp : Call → Option Directory.Op
  | .addRoomUserAdd user room _ => some (.join room.text user.userId)
  | .delRoomUserRem user room _ => some (.leave room.text user.userId)
  | _ => none

/- Once the calls of `p` have been executed, the directory is `d`. -/
def Completing (p : Pid) (d : Directory) (v : World) : Prop :=
  ((v.procs p).sent.filterMap Call.roomOp).foldl Directory.apply (directoryOf v.db) = d

section

variable {w v z : World} {p : Pid} {notice : Notice} {total : Str → ℕ}

theorem FanCall.directory {c : Call} (hc : FanCall w p notice c) (hw : WF v) :
    directoryOf (c.txn.run v.db).1 = c.roomOp.toList.foldl Directory.apply (directoryOf v.db) := by
  cases hc with
  | keys u => rfl
  | hash key rest found keys users => rfl
  | join user room hd => exact directory_join hw.db user room hd
  | leave user room hd => exact directory_leave user room hd

theorem FanCall.issues_no_op {c d : Call} (hc : FanCall w p notice c) {x : Proc} {r : Store.Reply}
    (hd : d ∈ x.replyCalls p c r) : d.roomOp = none := by
  have done : ∀ userList, d ∈ x.doneCalls p userList (.notice notice .nobody) → d.roomOp = none := by
    intro userList hm
    rcases List.mem_append.mp hm with hm | hm
    · obtain ⟨user, _, rfl⟩ := List.mem_map.mp hm
      rfl
    · cases hm
  have loop : ∀ userList keys, d ∈ x.loopCalls p (.notice notice .nobody) userList keys →
      d.roomOp = none := by
    intro userList keys hm
    cases keys with
    | nil => exact done userList hm
    | cons k ks =>
      rw [List.mem_singleton.mp hm]
      rfl
  cases hc with
  | keys u =>
    cases r with
    | array keys => exact loop [] keys hd
    | _ => exact done [] hd
  | hash key rest found keys users =>
    cases r with
    | hash res => exact loop _ rest hd
    | _ => cases hd
  | join user room h => cases hd
  | leave user room h => cases hd

theorem FanningOut.completing {e : Event} {d : Directory} (hf : FanningOut w p notice total v)
    (hw : WF v) (he : e.internal = true) (hs : NodeServer.step v e = some z)
    (hc : Completing p d v) :
    Completing p d z := by
  have silent : ∀ l : List Call, (∀ c ∈ l, c.roomOp = none) → l.filterMap Call.roomOp = [] := by
    intro l hl
    exact List.filterMap_eq_nil_iff.mpr hl
  rcases step_cases v z e hs with ⟨q, c, r, hx⟩ | ⟨q, i, x, hx⟩
  · obtain ⟨order, _, hdb, _⟩ := hx.internal_done he
    have hq : q = p := by
      by_contra hne
      have hnone := (hf.others q hne).2.1
      have hmem := hx.mem_calls
      rw [hnone] at hmem
      cases hmem
    subst hq
    have hfan := hf.calls c hx.mem_calls
    rw [Completing, hdb, hfan.directory hw, ← List.foldl_append]
    rw [Completing, hx.sent] at hc
    rw [← hc]
    cases hop : c.roomOp with
    | none => simp [hop]
    | some op => simp [hop]
  · have hsent : ∃ news, (z.procs p).sent = (v.procs p).sent ++ news ∧ ∀ c ∈ news, c.roomOp = none := by
      by_cases hq : p = q
      · subst hq
        refine ⟨x.issued p i, hx.issued hw, ?_⟩
        intro c hm
        cases i with
        | reply c₀ r => exact (hf.calls c₀ (hx.reply_call rfl)).issues_no_op hm
        | packet packet => cases hm
        | _ => cases hx.internal he
      · refine ⟨[], ?_, List.forall_mem_nil _⟩
        rw [List.append_nil]
        exact (hx.other_conns p hq).2.2.1
    obtain ⟨news, hsent, hnone⟩ := hsent
    rw [Completing, hsent, hx.db, List.filterMap_append, silent news hnone, List.append_nil]
    exact hc

theorem FanningOut.entries (hf : FanningOut w p notice total v) (q : Pid) (t : Str) :
    (v.procs q).userList.get t = (w.procs q).userList.get t := by
  by_cases hq : q = p
  · subst hq
    exact hf.users t
  · rw [(hf.others q hq).1]

/-- The sessions stay as they are. -/
theorem FanningOut.stays (hf : FanningOut w p notice total v) {q : Pid} {user : User}
    (h : OnlineAt w q user) : OnlineAt v q user where
  entry := by
    rw [hf.entries]
    exact h.entry
  opened := by
    rw [hf.sockets]
    exact h.opened
  recorded := by
    rw [hf.db user.key (IsOnlineKey.user _ _)]
    exact h.recorded

end

end NodeServer

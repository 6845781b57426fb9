import NodeServer.Proof.Identity

/-! # Ghost sessions

A login is a chain of Redis round trips, and its last callback installs the
user without looking at the connection again. A close event handled in between
finds no user to log out, and the session outlives its connection. -/

namespace NodeServer

/- A connection that has had its close event is in no table. -/
def NoGhost (w : World) : Prop :=
  ∀ p s, (w.procs p).ws s = some .closed →
    (w.procs p).userList.get s = none ∧ ∀ u, w.db.get (uniquePattern u s) = none

def ghostTrace : List Event :=
  [.connect 0 ['A'] 1, .message 0 (socketIdOf ['A']) (loginRequest ['u']) 2,
    .exec 0 (.done []), .reply 0, .peerClose 0 (socketIdOf ['A']), .wsClose 0 (socketIdOf ['A']),
    .exec 0 (.done []), .reply 0, .exec 0 (.done []), .reply 0]

theorem ghost_session_left :
    ¬ ∀ w, Run.Reach step (fun _ e => NoFailure e) World.initial w → Quiescent w → NoGhost w := by
  intro hall
  have hreach : Run.Reach step (fun _ e => NoFailure e) World.initial
      (Run.ends step World.initial ghostTrace) :=
    Run.reach_of_decide ghostTrace World.initial (by decide +kernel)
  have hquiet : Quiescent (Run.ends step World.initial ghostTrace) :=
    quiescent_ends ghostTrace _ (Run.runs_ends (by decide +kernel)) (by decide +kernel)
  have hgone := hall _ hreach hquiet 0 (socketIdOf ['A']) (by decide +kernel)
  have hin : ((Run.ends step World.initial ghostTrace).procs 0).userList.get (socketIdOf ['A']) ≠
      none := by decide +kernel
  exact hin hgone.1

/-! ### Runs without ghosts -/

/- The close event of a connection comes when no login is in flight on it. -/
def CloseWaits (w : World) : Event → Prop
  | .wsClose p s => ∀ l, InFlight w p s l → False
  | _ => True

instance (w : World) (e : Event) : Decidable (CloseWaits w e) :=
  match e with
  | .wsClose p s => inferInstanceAs (Decidable (∀ l, InFlight w p s l → False))
  | .connect .. | .message .. | .peerClose .. | .wsError .. | .exec .. | .reply .. | .deliver .. =>
    isTrue trivial

/-- After its close event a connection has no user and no login in flight. -/
def Shut (w : World) : Prop :=
  ∀ p s, (w.procs p).ws s = some .closed →
    (w.procs p).userList.get s = none ∧ ∀ l, ¬ InFlight w p s l

theorem wsClose_gone (p : Pid) (x : Proc) (s : Str) (hk : x.Keyed) :
    (react p (.wsClose s) x).userList.get s = none := by
  have hu := disconnect_userList (x.setWs s .closed) s s hk
  rw [if_pos rfl] at hu
  have hq := rejectConn_quiet ((x.setWs s .closed).disconnect s) s hu
  show (((x.setWs s .closed).disconnect s).rejectConn s).userList.get s = none
  rw [hq.userList, hu]

section

variable {w v : World} {e : Event} {p : Pid} {i : Input} {x : Proc}

theorem Handled.closed_back (h : Handled w v e p i x) (hw : WF w) (s : Str)
    (hc : (v.procs p).ws s = some .closed) : (w.procs p).ws s = some .closed ∨ i = .wsClose s := by
  obtain ⟨news, outs, heff⟩ := h.effect hw
  have hstep := heff.conns s
  rw [h.conns] at hstep
  unfold Proc.ws at hc ⊢
  obtain ⟨d, hd, hdc⟩ := Option.map_eq_some_iff.mp hc
  rw [hd] at hstep
  cases hx : (w.procs p).conns.get s with
  | none =>
    rw [hx] at hstep
    obtain ⟨now, _, hnew⟩ := hstep
    rw [hnew] at hdc
    cases hdc
  | some c =>
    rw [hx] at hstep
    rcases hstep.1 with (hws | ⟨_, hws⟩) | ⟨hi, _⟩ | ⟨_, hws⟩
    · exact Or.inl (by simp [← hws, hdc])
    · rw [hws] at hdc
      cases hdc
    · exact Or.inr hi
    · rw [hws] at hdc
      cases hdc

theorem Shut.handled (hw : WF w) (hs : Shut w) (hc : CloseWaits w e) (h : Handled w v e p i x) :
    Shut v := by
  intro q s hclosed
  by_cases hq : q = p
  · subst hq
    rcases h.closed_back hw s hclosed with hold | hi
    · obtain ⟨hnone, hfree⟩ := hs q s hold
      have hfree' : ∀ l, ¬ InFlight v q s l := by
        intro l hl
        rcases h.inFlight_cases hw hl with hl | ⟨_, req, now, ⟨hi, _⟩, _⟩
        · exact hfree l hl
        · have ha := h.arrives
          rw [hi] at ha
          rcases ha.2 with ho | ho
          · rw [hold] at ho
            cases ho
          · rw [hold] at ho
            cases ho
      refine ⟨?_, hfree'⟩
      obtain ⟨news, outs, heff⟩ := h.effect hw
      rcases heff.users s with hsame | ⟨hgone, _⟩ | ⟨l, r, hi, hsock, _⟩
      · rw [hsame, h.userList, hnone]
      · exact hgone
      · exact absurd ⟨⟨_, h.reply_call hi, rfl⟩, hsock⟩ (hfree l)
    · have ha := h.arrives
      rw [hi] at ha
      rw [ha.1] at hc
      refine ⟨?_, ?_⟩
      · rw [h.after, hi]
        exact wsClose_gone q x s (h.keyed hw)
      · intro l hl
        rcases h.inFlight_cases hw hl with hl | ⟨_, req, now, ⟨hi', _⟩, _⟩
        · exact hc l hl
        · rw [hi] at hi'
          cases hi'
  · obtain ⟨hconns, hus, hsent, hans⟩ := h.other_conns q hq
    have hold : (w.procs q).ws s = some .closed := by
      unfold Proc.ws at hclosed ⊢
      rwa [hconns] at hclosed
    obtain ⟨hnone, hfree⟩ := hs q s hold
    refine ⟨by rw [hus, hnone], ?_⟩
    intro l hl
    unfold InFlight Proc.calls at hl
    rw [hsent, hans] at hl
    exact hfree l hl

end

theorem Shut.executed {w v : World} {e : Event} {q : Pid} {c : Call} {r : Store.Reply}
    (hs : Shut w) (h : Executed w v e q c r) : Shut v := by
  intro p s hclosed
  rw [h.ws] at hclosed
  obtain ⟨hnone, hfree⟩ := hs p s hclosed
  rw [h.users p]
  exact ⟨hnone, fun l hl => hfree l ((h.inFlight p s l).mp hl)⟩

/-- A run in which overlapping logins agree, no close event comes during a
login and no command fails. -/
def GhostFree (w : World) (e : Event) : Prop := NoFailure e ∧ LoginsAgree w e ∧ CloseWaits w e

instance (w : World) (e : Event) : Decidable (GhostFree w e) :=
  inferInstanceAs (Decidable (_ ∧ _ ∧ _))

theorem ghostFree_invariant {w : World} (h : Run.Reach step GhostFree World.initial w) :
    WF w ∧ AllLive w ∧ Named w ∧ Tracked w ∧ Shut w := by
  refine Run.Reach.invariant (fun w => WF w ∧ AllLive w ∧ Named w ∧ Tracked w ∧ Shut w) ?_ ?_ h
  · refine ⟨WF.initial, ?_, ?_, ?_, ?_⟩
    · intro p s ho
      cases ho
    · intro p s a b ho
      exact absurd rfl ho
    · intro p s u ho
      exact absurd rfl ho
    · intro p s hc
      cases hc
  · intro v e v' ⟨hw, hl, hn, ht, hsh⟩ ⟨hfail, hagree, hwait⟩ hs
    rcases step_cases v v' e hs with ⟨q, c, r, hx⟩ | ⟨q, i, x, hx⟩
    · exact ⟨hw.step hs, hl.step hw hs, hn.executed hw hx, ht.executed hw hn hfail hx,
        hsh.executed hx⟩
    · exact ⟨hw.step hs, hl.step hw hs, hn.handled hw hl hagree hx, ht.handled hw hx,
        hsh.handled hw hwait hx⟩

theorem no_ghost_session (w : World) (hreach : Run.Reach step GhostFree World.initial w)
    (hquiet : Quiescent w) : NoGhost w := by
  obtain ⟨hw, _, _, htrack, hshut⟩ := ghostFree_invariant hreach
  intro p s hclosed
  have hnone := (hshut p s hclosed).1
  refine ⟨hnone, ?_⟩
  intro u
  by_contra hu
  obtain ⟨hsent, hans, _⟩ := hquiet p
  rcases htrack p s u (own_of_ws hclosed) hu with hin | ⟨l, r, hm, _⟩ | ⟨user, hm, _⟩
  · exact hin hnone
  · rw [hans] at hm
    cases hm
  · rw [hsent] at hm
    cases hm

/-- A login that completes before its connection closes. -/
def sessionTrace : List Event :=
  [.connect 0 ['A'] 1, .message 0 (socketIdOf ['A']) (loginRequest ['u']) 2,
    .exec 0 (.done []), .reply 0, .exec 0 (.done []), .reply 0, .exec 0 (.done []), .reply 0,
    .peerClose 0 (socketIdOf ['A']), .wsClose 0 (socketIdOf ['A']), .exec 0 (.done []), .reply 0]

theorem no_ghost_after_session : NoGhost (Run.ends step World.initial sessionTrace) :=
  no_ghost_session _ (Run.reach_of_decide sessionTrace World.initial (by decide +kernel))
    (quiescent_ends sessionTrace _ (Run.runs_ends (by decide +kernel)) (by decide +kernel))

end NodeServer

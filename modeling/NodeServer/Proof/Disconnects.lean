import NodeServer.Proof.Issued
import NodeServer.Proof.Live

/-! # Calls of `disconnect`

A close event, an error event and the rejected promise of a connection all end
in `disconnect`, often one after the other. It looks its user up in `userList`
and `logout` takes the user out before anything is awaited, so only the first
call after a login finds one. -/

namespace NodeServer

/-! ### Where `disconnect` is called -/

/- The states in which `reject` of a connection's promise calls `disconnect`. -/
def Proc.rejectedIn (s : Str) (x : Proc) : List Proc :=
  if x.isSettled s then [] else [x.settle s]

/- The states in which an input calls `disconnect` for a connection, in order. -/
def Proc.disconnectedIn (s : Str) (x : Proc) : Input → List Proc
  | .wsClose t =>
    if t = s then
      x.setWs s .closed :: Proc.rejectedIn s ((x.setWs s .closed).disconnect s) else []
  | .wsError t =>
    if t = s then
      x.setWs s .closing :: Proc.rejectedIn s ((x.setWs s .closing).disconnect s) else []
  | .message t req _ => if t = s ∧ getRouterByName req.route = none then x.rejectedIn s else []
  | _ => []

/- The commands a call of `disconnect` issues. -/
def Proc.disconnectIssues (s : Str) (x : Proc) : List Call :=
  (x.disconnect s).sent.drop x.sent.length

theorem disconnectIssues_eq (s : Str) (x : Proc) : x.disconnectIssues s = x.leaveCalls s := by
  rw [Proc.disconnectIssues, disconnect_sent, List.drop_left]

/-- Without an entry `disconnect` does nothing. -/
theorem disconnect_unknown {s : Str} {x : Proc} (h : x.userList.get s = none) :
    x.disconnect s = x ∧ x.disconnectIssues s = [] := by
  have hleave : x.leaveCalls s = [] := by simp only [Proc.leaveCalls, h]
  refine ⟨?_, (disconnectIssues_eq s x).trans hleave⟩
  simp only [Proc.disconnect, Proc.getUserWithSocket, h]

/- What happens to a connection: a user is installed for it in `userList`, or
`disconnect` is called. -/
inductive Mark where
  | install
  | call (x : Proc)

def Proc.marks (s : Str) (x : Proc) : Input → List Mark
  | .reply (.loginSet l) _ => if l.user.socketId = s then [.install] else []
  | i => (x.disconnectedIn s i).map .call

/- The marks of a step. Nothing is taken off a queue for the events of a
connection, so `disconnect` starts from the process as it was. -/
def World.marks (w : World) (p : Pid) (s : Str) (e : Event) : List Mark :=
  match inputOf w e with
  | some (q, i) => if q = p then (w.procs p).marks s i else []
  | none => []

def marks (p : Pid) (s : Str) (tr : List (World × Event)) : List Mark :=
  tr.flatMap fun a => a.1.marks p s a.2

/- The calls that are not the first one after an installation. -/
def furtherCalls : Bool → List Mark → List Proc
  | _, [] => []
  | _, .install :: ms => furtherCalls true ms
  | true, .call _ :: ms => furtherCalls false ms
  | false, .call x :: ms => x :: furtherCalls false ms

def Mark.isInstall : Mark → Bool
  | .install => true
  | .call _ => false

def Mark.issues (s : Str) : Mark → List Call
  | .install => []
  | .call x => x.disconnectIssues s

def Call.isLogout : Call → Bool
  | .logoutDel _ => true
  | _ => false

/- The leave of `disconnect`, which nobody awaits. -/
def Call.isQuietLeave : Call → Bool
  | .delRoomUserMembers _ _ none => true
  | _ => false

/- Logouts and leaves of `disconnect` are at most as many as installations, and
no call but the first after an installation has an effect. -/
structure DisconnectsOnce (s : Str) (ms : List Mark) : Prop where
  logouts : (ms.flatMap (Mark.issues s)).countP Call.isLogout ≤ ms.countP Mark.isInstall
  leaves : (ms.flatMap (Mark.issues s)).countP Call.isQuietLeave ≤ ms.countP Mark.isInstall
  further : ∀ x ∈ furtherCalls false ms, x.disconnect s = x

/-! ### Counting marks -/

/- Whether a user has been installed since the last call. -/
def installedSince : Bool → List Mark → Bool
  | b, [] => b
  | _, .install :: ms => installedSince true ms
  | _, .call _ :: ms => installedSince false ms

theorem installedSince_append (b : Bool) (ms ns : List Mark) :
    installedSince b (ms ++ ns) = installedSince (installedSince b ms) ns := by
  induction ms generalizing b with
  | nil => rfl
  | cons m ms ih =>
    cases m with
    | install => exact ih true
    | call x => exact ih false

theorem furtherCalls_append (b : Bool) (ms ns : List Mark) :
    furtherCalls b (ms ++ ns) = furtherCalls b ms ++ furtherCalls (installedSince b ms) ns := by
  induction ms generalizing b with
  | nil => rfl
  | cons m ms ih =>
    cases m with
    | install => exact ih true
    | call x =>
      cases b with
      | true => exact ih false
      | false => exact congrArg (x :: ·) (ih false)

theorem leaveCalls_count (s : Str) (x : Proc) :
    (x.disconnectIssues s).countP Call.isLogout ≤ 1 ∧
      (x.disconnectIssues s).countP Call.isQuietLeave ≤ 1 := by
  rw [disconnectIssues_eq, Proc.leaveCalls]
  split
  · exact ⟨Nat.zero_le 1, Nat.zero_le 1⟩
  · split
    · exact ⟨le_refl 1, Nat.zero_le 1⟩
    · exact ⟨le_refl 1, le_refl 1⟩

/-- When further calls issue nothing, there is at most one that does for every
installation. -/
theorem issues_count (s : Str) (f : Call → Bool)
    (hone : ∀ x : Proc, (x.disconnectIssues s).countP f ≤ 1) (b : Bool) (ms : List Mark)
    (h : ∀ x ∈ furtherCalls b ms, x.disconnectIssues s = []) :
    (ms.flatMap (Mark.issues s)).countP f ≤ ms.countP Mark.isInstall + (if b then 1 else 0) := by
  induction ms generalizing b with
  | nil => exact Nat.zero_le _
  | cons m ms ih =>
    cases m with
    | install =>
      have hrest := ih true h
      simp only [List.flatMap_cons, Mark.issues, List.nil_append, List.countP_cons, Mark.isInstall,
        if_true] at hrest ⊢
      omega
    | call x =>
      simp only [List.flatMap_cons, Mark.issues, List.countP_append, List.countP_cons,
        Mark.isInstall]
      cases b with
      | true =>
        have hrest := ih false h
        have hx := hone x
        simp only [Bool.false_eq_true, if_false, if_true] at hrest ⊢
        omega
      | false =>
        have hrest := ih false fun y hy => h y (List.mem_cons_of_mem _ hy)
        have hx : x.disconnectIssues s = [] := h x (List.mem_cons_self ..)
        rw [hx]
        simp only [Bool.false_eq_true, if_false, List.countP_nil] at hrest ⊢
        omega

/-! ### Runs -/

theorem Disconnects.no_reply {i : Input} {x : Proc} {s : Str} {c : Call} {r : Store.Reply}
    (hd : Disconnects i x s) (hi : i = .reply c r) : False := by
  subst hi
  rcases hd with hd | hd | ⟨_, _, hd, _⟩ <;> cases hd

/-- The first call of an input sees the entry of the connection; it is gone for
the ones after it. -/
theorem disconnectedIn_cases (s : Str) (x : Proc) (i : Input) (hk : x.Keyed) :
    (x.disconnectedIn s i = [] ∧ ¬ Disconnects i x s) ∨
    ∃ y rest, x.disconnectedIn s i = y :: rest ∧ y.userList = x.userList ∧
      y.leaveCalls s = x.leaveCalls s ∧ (∀ z ∈ rest, z.userList.get s = none) ∧
      Disconnects i x s := by
  have shut : ∀ ws, ∀ z ∈ Proc.rejectedIn s ((x.setWs s ws).disconnect s),
      z.userList.get s = none := by
    intro ws z hz
    have hgone := disconnect_userList (x.setWs s ws) s s hk
    rw [if_pos rfl] at hgone
    unfold Proc.rejectedIn at hz
    split at hz
    · cases hz
    · rw [List.mem_singleton.mp hz]
      exact hgone
  have same : ∀ ws, (x.setWs s ws).leaveCalls s = x.leaveCalls s := by
    intro ws
    simp only [Proc.leaveCalls, ctxRoomId_setWs]
    rfl
  cases i with
  | wsClose t =>
    by_cases ht : t = s
    · subst ht
      exact Or.inr ⟨_, _, if_pos rfl, rfl, same .closed, shut .closed, Or.inl rfl⟩
    · refine Or.inl ⟨if_neg ht, ?_⟩
      rintro (hd | hd | ⟨_, _, hd, _⟩) <;> cases hd
      exact ht rfl
  | wsError t =>
    by_cases ht : t = s
    · subst ht
      exact Or.inr ⟨_, _, if_pos rfl, rfl, same .closing, shut .closing, Or.inr (Or.inl rfl)⟩
    · refine Or.inl ⟨if_neg ht, ?_⟩
      rintro (hd | hd | ⟨_, _, hd, _⟩) <;> cases hd
      exact ht rfl
  | message t req now =>
    simp only [Proc.disconnectedIn, Proc.rejectedIn]
    split
    · next ht =>
      obtain ⟨rfl, hroute⟩ := ht
      split
      · next hsettled =>
        refine Or.inl ⟨rfl, ?_⟩
        rintro (hd | hd | ⟨_, _, _, _, hopen⟩)
        · cases hd
        · cases hd
        · rw [hsettled] at hopen
          cases hopen
      · next hsettled =>
        have hunsettled : x.isSettled t = false := by simpa using hsettled
        exact Or.inr ⟨_, [], rfl, rfl, settle_leaveCalls x t, List.forall_mem_nil _,
          Or.inr (Or.inr ⟨req, now, rfl, hroute, hunsettled⟩)⟩
    · next ht =>
      refine Or.inl ⟨rfl, ?_⟩
      rintro (hd | hd | ⟨_, _, hd, hroute, _⟩) <;> cases hd
      exact ht ⟨rfl, hroute⟩
  | connect | peerClose | reply | packet =>
    refine Or.inl ⟨rfl, ?_⟩
    rintro (hd | hd | ⟨_, _, hd, _⟩) <;> cases hd

section

variable {w v : World} {e : Event} {p : Pid} {i : Input} {x : Proc} {s : Str}

theorem Handled.disconnects_same (h : Handled w v e p i x) :
    Disconnects i x s ↔ Disconnects i (w.procs p) s := by
  simp only [Disconnects, Proc.isSettled, h.conns]

theorem Handled.disconnected (h : Handled w v e p i x) (hw : WF w) (hd : Disconnects i x s) :
    (v.procs p).userList.get s = none := by
  obtain ⟨news, outs, heff⟩ := h.effect hw
  have hnews : news = x.leaveCalls s := by
    have hsent := heff.sent
    rw [h.after, disconnects_sent p i x s (h.keyed hw) hd] at hsent
    exact (List.append_cancel_left hsent).symm
  rcases heff.users s with hsame | ⟨hnone, -⟩ | ⟨l, r, hi, -⟩
  · rw [hsame]
    by_contra hsome
    obtain ⟨user, hu⟩ := Option.ne_none_iff_exists'.mp hsome
    have hgone := heff.gone user (hnews ▸ (mem_leaveCalls x s user).mpr hu)
    rw [h.keyed hw s user hu, hsame, hu] at hgone
    cases hgone
  · exact hnone
  · exact absurd hi hd.no_reply

end

/- What the marks of a run so far say about the entry of the connection. -/
structure Marked (p : Pid) (s : Str) (tr : List (World × Event)) (v : World) : Prop where
  entry : (v.procs p).userList.get s ≠ none → installedSince false (marks p s tr) = true
  further : ∀ x ∈ furtherCalls false (marks p s tr), x.userList.get s = none

theorem marks_snoc (p : Pid) (s : Str) (tr : List (World × Event)) (w : World) (e : Event) :
    marks p s (tr ++ [(w, e)]) = marks p s tr ++ w.marks p s e := by
  rw [marks, List.flatMap_append, ← marks, List.flatMap_singleton]

theorem furtherCalls_calls (xs : List Proc) : furtherCalls false (xs.map .call) = xs := by
  induction xs with
  | nil => rfl
  | cons x xs ih => exact congrArg (x :: ·) ih

section

variable {p : Pid} {s : Str} {tr : List (World × Event)} {w v : World} {e : Event}

/-- A step without a mark gives the connection no entry. -/
theorem Marked.unmarked (hm : Marked p s tr w) (hmarks : w.marks p s e = [])
    (hentry : (v.procs p).userList.get s ≠ none → (w.procs p).userList.get s ≠ none) :
    Marked p s (tr ++ [(w, e)]) v := by
  have hsame : marks p s (tr ++ [(w, e)]) = marks p s tr := by
    rw [marks_snoc, hmarks, List.append_nil]
  constructor
  · rw [hsame]
    exact fun hne => hm.entry (hentry hne)
  · rw [hsame]
    exact hm.further

theorem Marked.installed (hm : Marked p s tr w) (hmarks : w.marks p s e = [.install]) :
    Marked p s (tr ++ [(w, e)]) v := by
  constructor
  · intro _
    rw [marks_snoc, hmarks, installedSince_append]
    rfl
  · rw [marks_snoc, hmarks, furtherCalls_append]
    simpa [furtherCalls] using hm.further

theorem Marked.disconnected (hm : Marked p s tr w) {y : Proc} {rest : List Proc}
    (hmarks : w.marks p s e = (y :: rest).map .call) (hy : y.userList = (w.procs p).userList)
    (hrest : ∀ z ∈ rest, z.userList.get s = none) (hgone : (v.procs p).userList.get s = none) :
    Marked p s (tr ++ [(w, e)]) v := by
  constructor
  · exact fun hne => absurd hgone hne
  · intro x hx
    rw [marks_snoc, hmarks, furtherCalls_append] at hx
    rcases List.mem_append.mp hx with hx | hx
    · exact hm.further x hx
    · cases hb : installedSince false (marks p s tr) with
      | true =>
        rw [hb] at hx
        exact hrest x (furtherCalls_calls rest ▸ hx)
      | false =>
        -- no user has been installed since the last call, so there is no entry
        rw [hb, furtherCalls_calls] at hx
        rcases List.mem_cons.mp hx with rfl | hx
        · rw [hy]
          by_contra hne
          rw [hm.entry hne] at hb
          cases hb
        · exact hrest x hx

theorem Handled.marks {q : Pid} {i : Input} {x : Proc} (h : Handled w v e q i x) :
    w.marks p s e = if q = p then (w.procs p).marks s i else [] := by
  simp only [World.marks, h.input]

/- An entry that was not there before is one a login has installed. -/
theorem Handled.entry_back {i : Input} {x : Proc} (h : Handled w v e p i x) (hw : WF w)
    (hi : ∀ l r, i = .reply (.loginSet l) r → l.user.socketId ≠ s)
    (hne : (v.procs p).userList.get s ≠ none) : (w.procs p).userList.get s ≠ none := by
  obtain ⟨news, outs, heff⟩ := h.effect hw
  rw [← h.userList]
  rcases heff.users s with hsame | ⟨hnone, -⟩ | ⟨l, r, hi', hs, -⟩
  · rwa [← hsame]
  · exact absurd hnone hne
  · exact absurd hs (hi l r hi')

theorem Marked.handled {i : Input} {x : Proc} (hm : Marked p s tr w) (hw : WF w)
    (h : Handled w v e p i x) : Marked p s (tr ++ [(w, e)]) v := by
  have hmarks : w.marks p s e = (w.procs p).marks s i := by rw [h.marks, if_pos rfl]
  by_cases hlogin : ∃ l r, i = .reply (.loginSet l) r
  · obtain ⟨l, r, rfl⟩ := hlogin
    by_cases hs : l.user.socketId = s
    · exact hm.installed (hmarks.trans (if_pos hs))
    · refine hm.unmarked (hmarks.trans (if_neg hs)) (h.entry_back hw ?_)
      intro l' r' hi
      cases hi
      exact hs
  · have hnot : ∀ l r, i = .reply (.loginSet l) r → l.user.socketId ≠ s :=
      fun l r hi => absurd ⟨l, r, hi⟩ hlogin
    have hcalls : (w.procs p).marks s i = ((w.procs p).disconnectedIn s i).map .call := by
      unfold Proc.marks
      split
      · exact absurd ⟨_, _, rfl⟩ hlogin
      · rfl
    have hk := hw.keyed p
    rcases disconnectedIn_cases s (w.procs p) i hk with ⟨hnil, -⟩ | ⟨y, rest, hcons, hy, -, hrest, hd⟩
    · rw [hcalls, hnil] at hmarks
      exact hm.unmarked hmarks (h.entry_back hw hnot)
    · rw [hcalls, hcons] at hmarks
      exact hm.disconnected hmarks hy hrest (h.disconnected hw (h.disconnects_same.mpr hd))

theorem Marked.step (hm : Marked p s tr w) (hw : WF w) (hs : NodeServer.step w e = some v) :
    Marked p s (tr ++ [(w, e)]) v := by
  rcases step_cases w v e hs with ⟨q, c, r, h⟩ | ⟨q, i, x, h⟩
  · have hmarks : w.marks p s e = [] := by
      rcases h.db with ⟨order, rfl, -⟩ | ⟨message, rfl, -⟩ <;> rfl
    exact hm.unmarked hmarks (by rw [h.users p]; exact id)
  · by_cases hq : q = p
    · subst hq
      exact hm.handled hw h
    · refine hm.unmarked (by rw [h.marks, if_neg hq]) ?_
      rw [(h.other_conns p fun hp => hq hp.symm).2.1]
      exact id

end

/-- What an input that disconnects issues is what its calls of `disconnect` do. -/
theorem Handled.sent_marks {w v : World} {e : Event} {p : Pid} {i : Input} {x : Proc} {s : Str}
    (h : Handled w v e p i x) (hw : WF w) (hd : Disconnects i (w.procs p) s) :
    (v.procs p).sent = (w.procs p).sent ++ (w.marks p s e).flatMap (Mark.issues s) := by
  have hk := hw.keyed p
  have hx := h.disconnects_same.mpr hd
  rcases disconnectedIn_cases s (w.procs p) i hk with ⟨-, hnot⟩ | ⟨y, rest, hcons, -, hy, hrest, -⟩
  · exact absurd hd hnot
  · have hmarks : w.marks p s e = (y :: rest).map .call := by
      rw [h.marks, if_pos rfl, ← hcons]
      unfold Proc.marks
      split
      · exact absurd rfl hd.no_reply
      · rfl
    have hnothing : rest.flatMap (Proc.disconnectIssues s) = [] :=
      List.flatMap_eq_nil_iff.mpr fun z hz => (disconnect_unknown (hrest z hz)).2
    have hissues : (w.marks p s e).flatMap (Mark.issues s) = (w.procs p).leaveCalls s := by
      rw [hmarks, List.flatMap_map]
      show y.disconnectIssues s ++ rest.flatMap (Proc.disconnectIssues s) = _
      rw [hnothing, List.append_nil, disconnectIssues_eq, hy]
    have hctx : x.ctxRoomId s = (w.procs p).ctxRoomId s := by simp only [Proc.ctxRoomId, h.conns]
    have hleave : x.leaveCalls s = (w.procs p).leaveCalls s := by
      rw [Proc.leaveCalls, Proc.leaveCalls, h.userList, hctx]
    rw [hissues, h.after, disconnects_sent p i x s (h.keyed hw) hx, h.sent, hleave]

/-- However close and error events, rejected promises and replies of logins,
joins and leaves are interleaved, `disconnect` logs a user out and leaves its
room at most once for each time one is installed, and its further calls change
nothing. -/
theorem disconnects_once (tr : List (World × Event)) (v : World) (p : Pid) (s : Str)
    (hrun : Run.Path step World.initial tr v) : DisconnectsOnce s (marks p s tr) ∧
      ∀ e i v', step v e = some v' → inputOf v e = some (p, i) → Disconnects i (v.procs p) s →
        (v'.procs p).sent = (v.procs p).sent ++ (v.marks p s e).flatMap (Mark.issues s) := by
  have hm : WF v ∧ Marked p s tr v := by
    refine hrun.invariant (fun tr v => WF v ∧ Marked p s tr v) ⟨WF.initial, ?_, ?_⟩ ?_
    · intro hne
      exact absurd rfl hne
    · intro x hx
      cases hx
    · rintro tr w e v ⟨hw, hm⟩ hs
      exact ⟨hw.step hs, hm.step hw hs⟩
  have hquiet : ∀ x ∈ furtherCalls false (marks p s tr), x.disconnectIssues s = [] :=
    fun x hx => (disconnect_unknown (hm.2.further x hx)).2
  refine ⟨⟨?_, ?_, ?_⟩, ?_⟩
  · exact issues_count s _ (fun x => (leaveCalls_count s x).1) false _ hquiet
  · exact issues_count s _ (fun x => (leaveCalls_count s x).2) false _ hquiet
  · exact fun x hx => (disconnect_unknown (hm.2.further x hx)).1
  · intro e i v' hs hin hd
    obtain ⟨q, j, x, h⟩ := step_handled hs (by cases e <;> first | rfl | cases hin)
    obtain ⟨rfl, rfl⟩ := Prod.mk.inj (Option.some.inj (hin.symm.trans h.input))
    exact h.sent_marks hm.1 hd

/-! ### A connection that fails and closes -/

/- A logs in and creates and joins room 1; its socket then has an error before
it closes. -/
def failedSocketTrace : List Event :=
  loginTrace ++ [.exec 0 (.done []), .reply 0,
    .message 0 (socketIdOf ['A']) (Route.roomCreate.request none .undefined) 3,
    .exec 0 (.done []), .reply 0, .exec 0 (.done []), .reply 0,
    .message 0 (socketIdOf ['A']) (Route.roomIn.request none (.str ['1'])) 4,
    .exec 0 (.done [roomPattern ['1']]), .reply 0, .exec 0 (.done []), .reply 0,
    .exec 0 (.done []), .reply 0, .wsError 0 (socketIdOf ['A']), .wsClose 0 (socketIdOf ['A'])]

theorem disconnects_once_failed :
    DisconnectsOnce (socketIdOf ['A'])
        (marks 0 (socketIdOf ['A']) (Run.steps step World.initial failedSocketTrace)) ∧
      ((marks 0 (socketIdOf ['A']) (Run.steps step World.initial failedSocketTrace)).map
        Mark.isInstall) = [true, false, false] := by
  obtain ⟨hrun, hmarks⟩ : (Run.runs step World.initial failedSocketTrace).isSome = true ∧
      ((marks 0 (socketIdOf ['A']) (Run.steps step World.initial failedSocketTrace)).map
        Mark.isInstall) = [true, false, false] := by
    decide +kernel
  exact ⟨(disconnects_once _ _ 0 (socketIdOf ['A']) (Run.path_ends failedSocketTrace hrun)).1, hmarks⟩

end NodeServer

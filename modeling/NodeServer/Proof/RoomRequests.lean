import NodeServer.Proof.RoomOps

/-! # Room requests one after another

A request of the connection that is processed to its end before anything else
happens does to the rooms what `RoomView.serve` says. -/

namespace NodeServer

open DBModelKeys

def Request.roomReq (req : Request) : Option RoomReq :=
  match getRouterByName req.route with
  | some (.handler .roomIn) => some (.roomIn req.roomId)
  | some (.handler .roomOut) => some (.roomOut req.roomId)
  | some (.handler .roomClose) => some (.roomClose req.roomId)
  | _ => none

/- A request on the connection, logged in as `u`, and its processing. -/
structure RoomServed (p : Pid) (s u : Str) (w : World) (op : RoomReq) (v : World) : Prop where
  logged : LoggedInAs w p s u
  run : ∃ req now m, req.roomReq = some op ∧ step w (.message p s req now) = some m ∧
    Run.Reach step (fun _ e => e.internal = true) m v
  done : Quiescent v

/- A sequence of them, with the world before each. -/
inductive RoomServes (p : Pid) (s u : Str) (w : World) : List (World × RoomReq) → World → Prop
  | nil : RoomServes p s u w [] w
  | snoc {tr : List (World × RoomReq)} {v v' : World} (op : RoomReq) : RoomServes p s u w tr v →
      RoomServed p s u v op v' → RoomServes p s u w (tr ++ [(v, op)]) v'

/-! ### Serving a request refines the view -/

/- One operation of the connection is in flight, and it leads to the view. -/
structure Serving (p : Pid) (s u : Str) (target : RoomView) (w : World) : Prop where
  wf : WF w
  own : w.own p s
  calls : ∀ q, ∀ c ∈ (w.procs q).calls, c.background = true ∨ (q = p ∧ c.opOf s u)
  short : (w.procs p).ops.length ≤ 1
  leads : (w.procs p).ops.foldr (fun op view => view.after op.1 op.2) (roomView w p s u) = target

section

variable {w v : World} {e : Event} {p q : Pid} {s u : Str} {target : RoomView}

theorem Serving.executed {c : Call} {r : Store.Reply} (hv : Serving p s u target w)
    (he : e.internal = true) (h : Executed w v e q c r) : Serving p s u target v := by
  have hcalls : ∀ t, ∀ c' ∈ (v.procs t).calls, c'.background = true ∨ (t = p ∧ c'.opOf s u) := by
    intro t c' hc'
    rw [h.calls t] at hc'
    exact hv.calls t c' hc'
  rcases hv.calls q c h.mem_calls with hb | ⟨rfl, hop⟩
  · have hwrites : c.writesRooms = false := by
      cases c with
      | lookupKeys | lookupHash | logoutDel => rfl
      | _ => cases hb
    refine ⟨hv.wf.executed h, (h.own p s).mpr hv.own, hcalls, ?_, ?_⟩
    · rw [h.ops_background hb]
      exact hv.short
    · rw [h.ops_background hb, h.view_same hv.wf hwrites]
      exact hv.leads
  · obtain ⟨hbefore, hafter⟩ := h.ops_moves (opOf_not_background hop) hv.short
    refine ⟨hv.wf.executed h, (h.own q s).mpr hv.own, hcalls, ?_, ?_⟩
    · rw [hafter]
      exact Nat.le_refl 1
    · have hleads := hv.leads
      rw [hbefore] at hleads
      rw [hafter, ← hleads]
      exact h.after_eq hv.wf he hop

variable {i : Input} {x : Proc}

theorem Handled.internal_input (h : Handled w v e q i x) (he : e.internal = true) :
    i.background ∨ ∃ c r, i = .reply c r := by
  have ha := h.arrives
  cases i with
  | reply c r => exact Or.inr ⟨c, r, rfl⟩
  | packet packet => exact Or.inl trivial
  | connect t now =>
    obtain ⟨suffix, rfl, _⟩ := ha
    cases he
  | _ =>
    rw [ha.1] at he
    cases he

theorem Serving.handled (hv : Serving p s u target w) (he : e.internal = true)
    (h : Handled w v e q i x) : Serving p s u target v := by
  have keep : i.background → Serving p s u target v := by
    intro hi
    refine ⟨hv.wf.handled h, h.own_mono hv.wf p s hv.own, ?_, ?_, ?_⟩
    · intro t c hc
      rcases h.call_cases hv.wf t c hc with hold | ⟨_, ho⟩
      · exact hv.calls t c hold
      · exact Or.inl (ho.background hi)
    · rw [h.ops_background hv.wf hi]
      exact hv.short
    · rw [h.ops_background hv.wf hi, h.view_background hv.wf hi]
      exact hv.leads
  rcases h.internal_input he with hi | ⟨c, r, rfl⟩
  · exact keep hi
  · rcases hv.calls q c (h.reply_call rfl) with hb | ⟨rfl, hop⟩
    · exact keep hb
    · obtain ⟨hbefore, hafter⟩ := h.ops_next hv.wf hop hv.short
      have hleads := hv.leads
      rw [hbefore] at hleads
      refine ⟨hv.wf.handled h, h.own_mono hv.wf q s hv.own, ?_, ?_, ?_⟩
      · intro t c' hc'
        rcases h.call_cases hv.wf t c' hc' with hold | ⟨rfl, ho⟩
        · exact hv.calls t c' hold
        · by_cases hb : c'.background = true
          · exact Or.inl hb
          · exact Or.inr ⟨rfl, Call.opOf_next hop (ho.next hop (by simpa using hb))⟩
      · rw [hafter, List.length_map]
        exact Option.length_toList_le
      · rw [hafter, ← hleads]
        refine Eq.trans ?_ (h.after_eq hv.wf hop hv.own).symm
        cases c.next r with
        | none => rfl
        | some c' => rfl

theorem Serving.reach (hstart : Serving p s u target w)
    (h : Run.Reach step (fun _ e => e.internal = true) w v) : Serving p s u target v := by
  refine Run.Reach.invariant (Serving p s u target) hstart ?_ h
  intro w e v hv he hs
  rcases step_cases w v e hs with ⟨q, c, r, hx⟩ | ⟨q, i, x, hx⟩
  · exact hv.executed he hx
  · exact hv.handled he hx

theorem roomReq_sent {req : Request} {op : RoomReq} {user : User} (p : Pid) (x : Proc) (s : Str)
    (now : ℕ) (hop : req.roomReq = some op) (hu : x.userList.get s = some user) (view : RoomView)
    (hnoted : view.noted = x.ctxRoomId s) :
    ∃ cs, (react p (.message s req now) x).sent = x.sent ++ cs ∧ cs.length ≤ 1 ∧
      (∀ c ∈ cs, c.opOf s user.userId) ∧
      cs.foldr (fun c view => view.after c none) view = view.serve op := by
  have hs := fun route => getBaseRespond_socketId x s req.id route
  unfold Request.roomReq at hop
  split at hop
  · next hroute =>
    cases hop
    refine ⟨[.addRoomUserKeys (some user) req.roomId (x.getBaseRespond s req.id .roomIn)], ?_,
      Nat.le_refl 1, ?_, rfl⟩
    · simp only [react, Proc.onMessage, hroute, Proc.handle, Proc.addRoomUser, Proc.issue,
        Proc.getUserWithSocket, hu]
    · intro c hc
      rw [List.mem_singleton.mp hc]
      exact ⟨rfl, hs .roomIn⟩
  · next hroute =>
    cases hop
    by_cases hnull : (x.ctxRoomId s).isNull = true
    · refine ⟨[], ?_, Nat.zero_le 1, by simp, ?_⟩
      · simp only [react, Proc.onMessage, hroute, Proc.handle, hnull, if_true]
        exact (Emits.sendRespond x _ false).sent
      · rw [← hnoted] at hnull
        simp only [List.foldr_nil, RoomView.serve, hnull, if_true]
    · refine ⟨[.delRoomUserMembers (some user) req.roomId
        (some (x.getBaseRespond s req.id .roomOut))], ?_, Nat.le_refl 1, ?_, ?_⟩
      · simp only [react, Proc.onMessage, hroute, Proc.handle, hnull, Bool.false_eq_true, if_false,
          Proc.delRoomUser, Proc.issue, Proc.getUserWithSocket, hu]
      · intro c hc
        rw [List.mem_singleton.mp hc]
        exact ⟨rfl, hs .roomOut⟩
      · rw [← hnoted] at hnull
        simp only [List.foldr_cons, List.foldr_nil, RoomView.after, RoomView.serve, hnull,
          Bool.false_eq_true, if_false]
  · next hroute =>
    cases hop
    refine ⟨[.delRoomKeys (some user) req.roomId (x.getBaseRespond s req.id .roomClose)], ?_,
      Nat.le_refl 1, ?_, rfl⟩
    · simp only [react, Proc.onMessage, hroute, Proc.handle, Proc.delRoom, Proc.issue,
        Proc.getUserWithSocket, hu]
    · intro c hc
      rw [List.mem_singleton.mp hc]
      trivial
  · cases hop

theorem Serving.start {req : Request} {op : RoomReq} {now : ℕ} (hw : WF w) (hquiet : Quiescent w)
    (hlogged : LoggedInAs w p s u) (hop : req.roomReq = some op)
    (hstep : step w (.message p s req now) = some v) :
    Serving p s u ((roomView w p s u).serve op) v := by
  obtain ⟨user, hu, rfl⟩ := hlogged
  obtain ⟨q, i, x, hx⟩ := step_handled hstep rfl
  obtain ⟨rfl, rfl⟩ := inputOf_message hx.input
  have hans : (v.procs p).answered = [] := by
    obtain ⟨news, outs, heff⟩ := hx.effect hw
    have hrest := hx.answered
    rw [(hquiet p).2.1] at hrest
    rw [heff.answered]
    exact hrest.symm
  obtain ⟨cs, hsent, hshort, hcs, hfold⟩ := roomReq_sent p x s now hop
    (by rw [hx.userList]; exact hu) (roomView w p s user.userId) (hx.ctx_eq s).symm
  rw [← hx.after, hx.sent, (hquiet p).1, List.nil_append] at hsent
  have hops : (v.procs p).ops = cs.map fun c => (c, none) := by
    have hall : (cs.filter fun c => !c.background) = cs := by
      rw [List.filter_eq_self]
      intro c hc
      simp [opOf_not_background (hcs c hc)]
    simp only [Proc.ops, hans, hsent, hall, List.filter_nil, List.map_nil, List.nil_append]
  have hview : roomView v p s user.userId = roomView w p s user.userId := by
    rcases hx.ctx_cases hw s with hsame | hnote
    · rw [hx.view_eq, hsame]
      rfl
    · obtain ⟨c, r, hi, _⟩ := hnote.req
      cases hi
  refine ⟨hw.handled hx, hx.own_mono hw p s (hx.asked_own s req now rfl), ?_, ?_, ?_⟩
  · intro t c hc
    by_cases ht : t = p
    · subst ht
      simp only [Proc.calls, hans, hsent, List.map_nil, List.nil_append] at hc
      exact Or.inr ⟨rfl, hcs c hc⟩
    · obtain ⟨_, _, hsent', hans'⟩ := hx.other_conns t ht
      simp only [Proc.calls, hsent', hans', (hquiet t).1, (hquiet t).2.1] at hc
      cases hc
  · rw [hops, List.length_map]
    exact hshort
  · rw [hops, hview, List.foldr_map]
    exact hfold

/-- Processing a request to its end does what `RoomView.serve` says. -/
theorem RoomServed.refines {op : RoomReq} (hw : WF w) (hquiet : Quiescent w)
    (h : RoomServed p s u w op v) : roomView v p s u = (roomView w p s u).serve op := by
  obtain ⟨req, now, m, hop, hstep, hrun⟩ := h.run
  have hv := (Serving.start hw hquiet h.logged hop hstep).reach hrun
  have hops : (v.procs p).ops = [] := by
    simp only [Proc.ops, (h.done p).1, (h.done p).2.1, List.filter_nil, List.map_nil,
      List.append_nil]
  have hleads := hv.leads
  rw [hops] at hleads
  exact hleads

end

/-! ### Sequences of requests -/

def RoomsAgree (w : World) (p : Pid) (s u : Str) : Prop := (roomView w p s u).Agrees

theorem roomsAgree_start {w : World} {p : Pid} {s u : Str} (hnone : InNoRoom w u)
    (hnull : ((w.procs p).ctxRoomId s).isNull = true) : RoomsAgree w p s u := by
  intro n _
  constructor
  · intro hin
    exact absurd hin (hnone (natText n))
  · intro hnoted
    exact absurd hnoted (isNull_not_decimal _ hnull n)

theorem RoomServes.invariant {w v : World} {p : Pid} {s u : Str} {tr : List (World × RoomReq)}
    (hw : WF w) (hquiet : Quiescent w) (h : RoomServes p s u w tr v) : WF v ∧ Quiescent v := by
  induction h with
  | nil => exact ⟨hw, hquiet⟩
  | snoc op hrest hserved ih =>
    obtain ⟨req, now, m, _, hstep, hrun⟩ := hserved.run
    exact ⟨(ih.1.step hstep).reach hrun, hserved.done⟩

/-- The noted room and the membership agree after every request exactly when
every request concerns the room noted before it, as far as that room exists. -/
theorem rooms_agree_iff (p : Pid) (s u : Str) (w v : World) (tr : List (World × RoomReq))
    (hreach : Reachable w) (hquiet : Quiescent w) (hnone : InNoRoom w u)
    (hnull : ((w.procs p).ctxRoomId s).isNull = true) (hserves : RoomServes p s u w tr v) :
    ((∀ a ∈ tr, RoomsAgree a.1 p s u) ∧ RoomsAgree v p s u) ↔
      ∀ a ∈ tr, (roomView a.1 p s u).Keeps a.2 := by
  have hw : WF w := WF.initial.reach hreach
  induction hserves with
  | nil => simp [roomsAgree_start hnone hnull]
  | @snoc tr v v' op hrest hserved ih =>
    obtain ⟨hv, hvq⟩ := hrest.invariant hw hquiet
    have hrefines := hserved.refines hv hvq
    have hafter : RoomsAgree v' p s u ↔ ((roomView v p s u).serve op).Agrees := by
      rw [RoomsAgree, hrefines]
    simp only [List.forall_mem_append, List.forall_mem_singleton]
    constructor
    · rintro ⟨⟨hall, hagree⟩, hlast⟩
      exact ⟨ih.mp ⟨hall, hagree⟩, (RoomView.agrees_serve_iff _ hagree op).mp (hafter.mp hlast)⟩
    · rintro ⟨hall, hkeeps⟩
      obtain ⟨hall, hagree⟩ := ih.mpr hall
      exact ⟨⟨hall, hagree⟩, hafter.mpr ((RoomView.agrees_serve_iff _ hagree op).mpr hkeeps)⟩

/-! ### Leaving the joined room, and joining a second one -/

theorem RoomServed.ofTrace {p : Pid} {s u : Str} (before after : List Event) {req : Request}
    {now : ℕ} {op : RoomReq} (hop : req.roomReq = some op)
    (hrun : (Run.runs step World.initial (before ++ .message p s req now :: after)).isSome = true)
    (hlogged : LoggedInAs (Run.ends step World.initial before) p s u)
    (hinternal : after.all Event.internal = true)
    (hquiet : Quiescent (Run.ends step World.initial (before ++ .message p s req now :: after))) :
    RoomServed p s u (Run.ends step World.initial before) op
      (Run.ends step World.initial (before ++ .message p s req now :: after)) := by
  obtain ⟨_, hrest⟩ := Run.runs_split hrun
  obtain ⟨m, hm, hafter⟩ := Option.bind_eq_some_iff.mp hrest
  refine ⟨hlogged, ⟨req, now, m, hop, hm, ?_⟩, hquiet⟩
  exact Run.reach_of_runs after m _ (fun e he _ => List.all_eq_true.mp hinternal e he) hafter

theorem InNoRoom.ofTest {w : World} (u : Str)
    (h : (w.db.keys.all fun k => !RoomMemberKey.isPrefixOf k) = true) : InNoRoom w u := by
  intro room hin
  cases hv : w.db.get (memberPattern room) with
  | none => simp [members, Store.membersOf, hv] at hin
  | some value =>
    have hk := List.all_eq_true.mp h _ ((Table.mem_keys_iff _ _).mpr ⟨value, hv⟩)
    rw [memberPattern, List.isPrefixOf_iff_prefix.mpr (List.prefix_append _ _)] at hk
    cases hk

/- A logs in and creates rooms 1 and 2. -/
def twoRoomsTrace : List Event :=
  roomTrace ++ [.message 0 (socketIdOf ['A']) (Route.roomCreate.request none .undefined) 4,
    .exec 0 (.done []), .reply 0, .exec 0 (.done []), .reply 0]

def roomInEvent (room : Str) : Event :=
  .message 0 (socketIdOf ['A']) (Route.roomIn.request none (.str room)) 5

/- The processing of a join of an empty room. -/
def joinServed (room : Str) : List Event :=
  [.exec 0 (.done [roomPattern room]), .reply 0, .exec 0 (.done []), .reply 0, .exec 0 (.done []),
    .reply 0]

def firstJoinTrace : List Event := twoRoomsTrace ++ roomInEvent ['1'] :: joinServed ['1']

theorem firstJoin_served : RoomServed 0 (socketIdOf ['A']) ['u']
    (Run.ends step World.initial twoRoomsTrace) (.roomIn (.str ['1']))
    (Run.ends step World.initial firstJoinTrace) := by
  obtain ⟨hrun, hlogged, hquiet⟩ : (Run.runs step World.initial firstJoinTrace).isSome = true ∧
      LoggedInAs (Run.ends step World.initial twoRoomsTrace) 0 (socketIdOf ['A']) ['u'] ∧
      ((firstJoinTrace.flatMap Event.pids).all fun p =>
        ((Run.ends step World.initial firstJoinTrace).procs p).quiet) = true := by decide +kernel
  exact RoomServed.ofTrace twoRoomsTrace (joinServed ['1']) (by decide) hrun hlogged rfl
    (quiescent_ends firstJoinTrace _ (Run.runs_ends hrun) hquiet)

theorem twoRooms_start : Reachable (Run.ends step World.initial twoRoomsTrace) ∧
    Quiescent (Run.ends step World.initial twoRoomsTrace) ∧
    InNoRoom (Run.ends step World.initial twoRoomsTrace) ['u'] := by
  obtain ⟨hrun, hquiet, hnone⟩ : (Run.runs step World.initial twoRoomsTrace).isSome = true ∧
      ((twoRoomsTrace.flatMap Event.pids).all fun p =>
        ((Run.ends step World.initial twoRoomsTrace).procs p).quiet) = true ∧
      ((Run.ends step World.initial twoRoomsTrace).db.keys.all fun k =>
        !RoomMemberKey.isPrefixOf k) = true := by decide +kernel
  exact ⟨Run.reach_ends _ hrun, quiescent_ends twoRoomsTrace _ (Run.runs_ends hrun) hquiet,
    InNoRoom.ofTest ['u'] hnone⟩

def joinAndLeaveTrace : List Event :=
  firstJoinTrace ++ .message 0 (socketIdOf ['A']) (Route.roomOut.request none (.str ['1'])) 6 ::
    [.exec 0 (.done [['u']]), .reply 0, .exec 0 (.done []), .reply 0]

theorem rooms_agree_iff_left :
    RoomsAgree (Run.ends step World.initial joinAndLeaveTrace) 0 (socketIdOf ['A']) ['u'] := by
  obtain ⟨hrun, hlogged, hdone, hnull, hnoted⟩ :
      (Run.runs step World.initial joinAndLeaveTrace).isSome = true ∧
      LoggedInAs (Run.ends step World.initial firstJoinTrace) 0 (socketIdOf ['A']) ['u'] ∧
      ((joinAndLeaveTrace.flatMap Event.pids).all fun p =>
        ((Run.ends step World.initial joinAndLeaveTrace).procs p).quiet) = true ∧
      (((Run.ends step World.initial twoRoomsTrace).procs 0).ctxRoomId
        (socketIdOf ['A'])).isNull = true ∧
      ((Run.ends step World.initial firstJoinTrace).procs 0).ctxRoomId (socketIdOf ['A']) =
        .str ['1'] := by decide +kernel
  have hserved : RoomServed 0 (socketIdOf ['A']) ['u'] (Run.ends step World.initial firstJoinTrace)
      (.roomOut (.str ['1'])) (Run.ends step World.initial joinAndLeaveTrace) :=
    RoomServed.ofTrace firstJoinTrace _ (by decide) hrun hlogged rfl
      (quiescent_ends joinAndLeaveTrace _ (Run.runs_ends hrun) hdone)
  obtain ⟨hreach, hquiet, hnone⟩ := twoRooms_start
  refine ((rooms_agree_iff 0 (socketIdOf ['A']) ['u'] _ _ _ hreach hquiet hnone hnull
    ((RoomServes.nil.snoc _ firstJoin_served).snoc _ hserved)).mpr ?_).2
  intro a ha
  rcases List.mem_cons.mp ha with rfl | ha
  · intro _ n _ hn
    exact absurd hn (isNull_not_decimal _ hnull n)
  · rw [List.mem_singleton.mp ha]
    intro n _ hn
    have hn : (((Run.ends step World.initial firstJoinTrace).procs 0).ctxRoomId
      (socketIdOf ['A'])).text = natText n := hn
    rw [hnoted] at hn
    exact hn

def secondJoinTrace : List Event := firstJoinTrace ++ roomInEvent ['2'] :: joinServed ['2']

theorem member_of_two_rooms :
    ¬ ∀ (p : Pid) (s u : Str) (w v : World) (tr : List (World × RoomReq)), Reachable w →
      Quiescent w → (w.procs p).ws s = some .opened → InNoRoom w u →
      ((w.procs p).ctxRoomId s).isNull = true → RoomServes p s u w tr v → RoomsAgree v p s u := by
  intro hall
  obtain ⟨hrun, hlogged, hdone, hws, hnull, hopen, hin, hnoted⟩ :
      (Run.runs step World.initial secondJoinTrace).isSome = true ∧
      LoggedInAs (Run.ends step World.initial firstJoinTrace) 0 (socketIdOf ['A']) ['u'] ∧
      ((secondJoinTrace.flatMap Event.pids).all fun p =>
        ((Run.ends step World.initial secondJoinTrace).procs p).quiet) = true ∧
      ((Run.ends step World.initial twoRoomsTrace).procs 0).ws (socketIdOf ['A']) = some .opened ∧
      (((Run.ends step World.initial twoRoomsTrace).procs 0).ctxRoomId
        (socketIdOf ['A'])).isNull = true ∧
      ((Run.ends step World.initial secondJoinTrace).db.get (roomPattern (natText 1))).isSome = true ∧
      ['u'] ∈ members (Run.ends step World.initial secondJoinTrace).db (natText 1) ∧
      (((Run.ends step World.initial secondJoinTrace).procs 0).ctxRoomId
        (socketIdOf ['A'])).text ≠ natText 1 := by decide +kernel
  have hserved : RoomServed 0 (socketIdOf ['A']) ['u'] (Run.ends step World.initial firstJoinTrace)
      (.roomIn (.str ['2'])) (Run.ends step World.initial secondJoinTrace) :=
    RoomServed.ofTrace firstJoinTrace _ (by decide) hrun hlogged rfl
      (quiescent_ends secondJoinTrace _ (Run.runs_ends hrun) hdone)
  obtain ⟨hreach, hquiet, hnone⟩ := twoRooms_start
  have hagree := hall 0 (socketIdOf ['A']) ['u'] _ _ _ hreach hquiet hws hnone hnull
    ((RoomServes.nil.snoc _ firstJoin_served).snoc _ hserved)
  exact hnoted ((hagree 1 (Option.isSome_iff_ne_none.mp hopen)).mp hin)

end NodeServer

import NodeServer.Proof.Announce
import Mathlib.Data.List.Forall2

/-! # Telling the members that their room is closed

The transaction of `delRoom` lists the members and deletes the set in one step,
so its reply lists exactly the memberships it ends. The commands of a process
are executed and answered in the order of issue: its transactions and the
callbacks that tell the members are matched one by one. -/

namespace NodeServer

/- The users a step takes out of the room. -/
def World.removed (w : World) (e : Event) (room : Str) : List Str :=
  match step w e with
  | some v => (members w.db room).filter fun u => u ∉ members v.db room
  | none => []

/- The users a step tells that the room is closed. -/
def World.toldClosed (w : World) (e : Event) (room : Str) : List Str :=
  (w.notices e).filterMap fun n => match n.2 with
    | .roomClose roomId => if roomId.text = room then some n.1 else none
    | _ => none

/- The transaction of a `delRoom` of process `p` that a step executes: its room,
and the users whose membership it ends. -/
def closeOf (p : Pid) (s : World × Event) : Option (Str × List Str) :=
  match s.2 with
  | .exec q (.done _) =>
    match (s.1.procs q).sent with
    | .delRoomExec roomId _ :: _ =>
      if q = p then some (roomId.text, s.1.removed s.2 roomId.text) else none
    | _ => none
  | _ => none

/- The callback of an executed transaction: its room, and the users told. -/
def callbackOf (p : Pid) (s : World × Event) : Option (Str × List Str) :=
  match inputOf s.1 s.2 with
  | some (q, .reply (.delRoomExec roomId _) r) =>
    if q = p ∧ r.err = none then some (roomId.text, s.1.toldClosed s.2 roomId.text) else none
  | _ => none

/- The members the reply of a transaction lists. -/
def closedMembers : Store.Reply → List Str
  | .exec (.array res :: _) => res
  | _ => []

/- A callback still to run: its room, and the users it will tell. -/
def pendingClose : Call × Store.Reply → Option (Str × List Str)
  | (.delRoomExec roomId _, r) =>
    if r.err = none then some (roomId.text, closedMembers r) else none
  | _ => none

/- The callback tells each user whose membership the transaction ended once, and
nobody else. -/
structure ToldOnce (ended told : Str × List Str) : Prop where
  room : told.1 = ended.1
  users : ∀ u, told.2.count u = if u ∈ ended.2 then 1 else 0

/-! ### The transaction -/

section

variable {w v : World} {e : Event} {p q : Pid}

theorem Executed.setsNodup {c : Call} {r : Store.Reply} (h : Executed w v e p c r)
    (hw : Store.SetsNodup w.db) : Store.SetsNodup v.db := by
  rcases h.db with ⟨_, _, hdb, _⟩ | ⟨_, _, hdb, _⟩
  · rw [hdb]
    exact Store.txn_setsNodup c.txn w.db hw
  · rw [hdb]
    exact hw

/-- The reply of a transaction that ran lists the members it found. -/
theorem Executed.closed_reply {roomId : JsVal} {hd : Handler} {r : Store.Reply} {order : List Str}
    (h : Executed w v e p (.delRoomExec roomId hd) r) (hw : WF w)
    (he : e = .exec p (.done order)) :
    r.err = none ∧ (closedMembers r).Perm (members w.db roomId.text) := by
  rcases h.db with ⟨order', _, _, hr⟩ | ⟨_, hf, _⟩
  · have hlist : Store.smembers (memberPattern roomId.text) w.db =
        .array (members w.db roomId.text) := by
      rcases hw.member_type roomId.text with hnone | ⟨ms, hset⟩
      · simp [Store.smembers, members, Store.membersOf, hnone]
      · simp [Store.smembers, members, Store.membersOf, hset]
    have hr : (Store.Reply.exec (Store.smembers (memberPattern roomId.text) w.db ::
        (Store.runAll [.del (memberPattern roomId.text), .del (roomPattern roomId.text)]
          w.db).2)).inOrder order' = some r := hr
    rw [hlist] at hr
    obtain ⟨rs, hrs, rfl⟩ := Option.map_eq_some_iff.mp hr
    refine ⟨rfl, ?_⟩
    rw [List.mapM_cons] at hrs
    obtain ⟨first, hfirst, hrest⟩ := Option.bind_eq_some_iff.mp hrs
    obtain ⟨rest, _, hcons⟩ := Option.bind_eq_some_iff.mp hrest
    obtain ⟨rfl, hperm⟩ := Store.inOrder_array order' _ first hfirst
    cases hcons
    exact hperm
  · rw [he] at hf
    cases hf

theorem Executed.matched {c : Call} {r : Store.Reply} (h : Executed w v e q c r) (hw : WF w)
    (hnodup : Store.SetsNodup w.db) (hs : step w e = some v) (p : Pid) :
    List.Forall₂ ToldOnce ([(w, e)].filterMap (closeOf p))
      (if q = p then [(c, r)].filterMap pendingClose else []) := by
  have hempty : closeOf p (w, e) = none → (q = p → pendingClose (c, r) = none) →
      List.Forall₂ ToldOnce ([(w, e)].filterMap (closeOf p))
        (if q = p then [(c, r)].filterMap pendingClose else []) := by
    intro hclose hpending
    by_cases hq : q = p
    · simp [hclose, hq, hpending hq]
    · simp [hclose, hq]
  rcases h.db with ⟨order, he, _⟩ | ⟨message, he, _, hr⟩
  · subst he
    cases c with
    | delRoomExec roomId hd =>
      obtain ⟨herr, hperm⟩ := h.closed_reply hw rfl
      by_cases hq : q = p
      · subst hq
        have hgone : members v.db roomId.text = [] := (h.closed rfl).2
        have hremoved : w.removed (.exec q (.done order)) roomId.text = members w.db roomId.text := by
          simp only [World.removed, hs, hgone]
          exact List.filter_eq_self.mpr fun _ _ => rfl
        have hclose : closeOf q (w, .exec q (.done order)) =
            some (roomId.text, members w.db roomId.text) := by
          simp only [closeOf, h.sent, if_true, hremoved]
        have hpending : pendingClose (.delRoomExec roomId hd, r) =
            some (roomId.text, closedMembers r) := by
          simp only [pendingClose, herr, if_true]
        simp only [List.filterMap_cons, hclose, hpending, if_true, List.filterMap_nil]
        refine .cons ⟨rfl, ?_⟩ .nil
        intro u
        have hset : (members w.db roomId.text).Nodup := hnodup (memberPattern roomId.text)
        rw [hperm.count_eq, hset.count]
      · apply hempty
        · simp only [closeOf, h.sent, hq, if_false]
        · exact fun hp => absurd hp hq
    | _ => exact hempty (by simp only [closeOf, h.sent]) fun _ => rfl
  · subst he hr
    apply hempty
    · rfl
    · intro _
      cases c with
      | delRoomExec roomId hd => rfl
      | _ => rfl

/-! ### The callback -/

theorem delRoomExec_calls (p : Pid) (x : Proc) (roomId : JsVal) (hd : Handler) (r : Store.Reply) :
    x.replyCalls p (.delRoomExec roomId hd) r = fanOut (.roomClose roomId) (closedMembers r) := by
  cases r with
  | exec rs =>
    cases rs with
    | nil => rfl
    | cons first rest =>
      cases first with
      | _ => rfl
  | _ => rfl

theorem mem_fanOut_sendTo {notice : Notice} {users : List Str} {c : Call}
    (hc : c ∈ fanOut notice users) : ∃ u ∈ users, c.sendTo = some (u, notice) := by
  obtain ⟨u, hu, rfl⟩ := List.mem_map.mp hc
  exact ⟨u, hu, rfl⟩

section

variable {c : Call} {u : Str} {roomId : JsVal} {x : Proc}
  (hto : c.sendTo = some (u, .roomClose roomId))

include hto

theorem fanOut_roomClose {notice : Notice} {users : List Str} (hc : c ∈ fanOut notice users) :
    notice = .roomClose roomId := by
  obtain ⟨v, _, hv⟩ := mem_fanOut_sendTo hc
  rw [hv] at hto
  cases hto
  rfl

theorem single_roomClose {d : Call} (hc : c ∈ [d]) (hd : d.sendTo = none) : False := by
  rw [List.mem_singleton.mp hc, hd] at hto
  cases hto

theorem doneCalls_roomClose {next : LookupFor} {userList : List User}
    (hc : c ∈ x.doneCalls p userList next) : False := by
  cases next with
  | notice notice after =>
    rcases List.mem_append.mp hc with hc | hc
    · obtain ⟨user, _, rfl⟩ := List.mem_map.mp hc
      cases hto
    · cases after with
      | nobody => cases hc
      | login l => exact single_roomClose hto hc rfl
  | loginKick l => exact single_roomClose hto hc rfl
  | sendMsg user msg => cases fanOut_roomClose hto hc

theorem loopCalls_roomClose {next : LookupFor} {userList : List User} {res : List Str}
    (hc : c ∈ x.loopCalls p next userList res) : False := by
  cases res with
  | nil => exact doneCalls_roomClose hto hc
  | cons key rest => exact single_roomClose hto hc rfl

theorem replyCalls_roomClose {c₀ : Call} {r : Store.Reply} (hc : c ∈ x.replyCalls p c₀ r) :
    ∃ hd, c₀ = .delRoomExec roomId hd ∧ r.err = none := by
  -- the fan-out of a join or leave stands before its next call
  have after : ∀ notice users d, c ∈ fanOut notice users ++ [d] → d.sendTo = none →
      notice = .roomClose roomId := by
    intro notice users d hm hd
    rcases List.mem_append.mp hm with hm | hm
    · exact fanOut_roomClose hto hm
    · exact (single_roomClose hto hm hd).elim
  unfold Proc.replyCalls at hc
  split at hc
  · exact (loopCalls_roomClose hto hc).elim
  · exact (doneCalls_roomClose hto hc).elim
  · exact (loopCalls_roomClose hto hc).elim
  · cases hc
  · exact (single_roomClose hto hc rfl).elim
  · exact (single_roomClose hto hc rfl).elim
  · exact (single_roomClose hto hc rfl).elim
  · cases fanOut_roomClose hto hc
    exact ⟨_, rfl, rfl⟩
  · exact (single_roomClose hto hc rfl).elim
  · cases fanOut_roomClose hto hc
  · exact (single_roomClose hto hc rfl).elim
  · exact (single_roomClose hto hc rfl).elim
  · exact (single_roomClose hto hc rfl).elim
  · cases after _ _ _ hc rfl
  · exact (single_roomClose hto hc rfl).elim
  · cases after _ _ _ hc rfl
  · exact (single_roomClose hto hc rfl).elim
  · cases hc

theorem requestCalls_roomClose {s : Str} {req : Request} {now : ℕ} {route : Route}
    (hc : c ∈ x.requestCalls p s req now route) : False := by
  cases route with
  | heartbeat => cases hc
  | logout => cases hc
  | login =>
    simp only [Proc.requestCalls] at hc
    split at hc
    · rw [List.mem_singleton.mp hc] at hto
      cases hto
    · cases hc
  | roomOut =>
    simp only [Proc.requestCalls] at hc
    split at hc
    · cases hc
    · exact single_roomClose hto hc rfl
  | sendLiveChat =>
    simp only [Proc.requestCalls] at hc
    split at hc
    · cases hc
    · exact single_roomClose hto hc rfl
  | sendMsg =>
    simp only [Proc.requestCalls] at hc
    split at hc
    · exact single_roomClose hto hc rfl
    · cases hc
  | _ => exact single_roomClose hto hc rfl

/-- A close notice is sent by the callback of a transaction of its room. -/
theorem issued_roomClose {i : Input} (hc : c ∈ x.issued p i) :
    ∃ hd r, i = .reply (.delRoomExec roomId hd) r ∧ r.err = none := by
  have leave : ∀ s, c ∉ x.leaveCalls s := by
    intro s hm
    unfold Proc.leaveCalls at hm
    split at hm
    · cases hm
    · split at hm
      · exact single_roomClose hto hm rfl
      · rcases List.mem_pair.mp hm with rfl | rfl
        · cases hto
        · cases hto
  cases i with
  | connect s now => cases hc
  | peerClose s => cases hc
  | packet packet => cases hc
  | wsError s => exact absurd hc (leave s)
  | wsClose s => exact absurd hc (leave s)
  | reply c₀ r =>
    obtain ⟨hd, rfl, herr⟩ := replyCalls_roomClose hto hc
    exact ⟨hd, r, rfl, herr⟩
  | message s req now =>
    simp only [Proc.issued] at hc
    split at hc
    · exact (requestCalls_roomClose hto hc).elim
    · cases hc
    · split at hc
      · cases hc
      · exact absurd hc (leave s)

end

theorem Handled.toldClosed {i : Input} {x : Proc} {roomId : JsVal} {hd : Handler} {r : Store.Reply}
    (h : Handled w v e p i x) (hw : WF w) (hs : step w e = some v)
    (hi : i = .reply (.delRoomExec roomId hd) r) :
    w.toldClosed e roomId.text = closedMembers r := by
  subst hi
  rw [World.toldClosed, h.notices hw hs]
  show ((x.replyCalls p (.delRoomExec roomId hd) r).filterMap Call.sendTo).filterMap _ = _
  rw [delRoomExec_calls, fanOut_sendTo, List.filterMap_map]
  simp

/-- The callback tells whom the reply lists. -/
theorem Handled.callbackOf {i : Input} {x : Proc} (h : Handled w v e q i x) (hw : WF w)
    (hs : step w e = some v) (p : Pid) :
    [(w, e)].filterMap (callbackOf p) = if q = p then i.replied.filterMap pendingClose else [] := by
  cases i with
  | reply c r =>
    cases c with
    | delRoomExec roomId hd =>
      have htold := h.toldClosed hw hs rfl
      by_cases hq : q = p
      · cases herr : r.err with
        | none => simp [NodeServer.callbackOf, h.input, hq, herr, htold, Input.replied, pendingClose]
        | some err => simp [NodeServer.callbackOf, h.input, hq, herr, Input.replied, pendingClose]
      · simp [NodeServer.callbackOf, h.input, hq]
    | _ => simp [NodeServer.callbackOf, h.input, Input.replied, pendingClose]
  | _ => simp [NodeServer.callbackOf, h.input, Input.replied]

end

/-! ### Runs -/

/- The transactions executed so far, in step with the callbacks that have run and
those still to run. -/
structure CloseLedger (tr : List (World × Event)) (w : World) : Prop where
  wf : WF w
  nodup : Store.SetsNodup w.db
  matched : ∀ p, List.Forall₂ ToldOnce (tr.filterMap (closeOf p))
    (tr.filterMap (callbackOf p) ++ (w.procs p).answered.filterMap pendingClose)
  counted : ∀ s ∈ tr, ∀ u roomId, (u, .roomClose roomId) ∈ s.1.notices s.2 →
    ∃ p users, callbackOf p s = some (roomId.text, users) ∧ u ∈ users

section

variable {tr : List (World × Event)} {w v : World} {e : Event} {q : Pid}

/-- The reply joins the end of the queue as its transaction joins the run. -/
theorem CloseLedger.executed {c : Call} {r : Store.Reply} (hl : CloseLedger tr w)
    (h : Executed w v e q c r) (hs : step w e = some v) : CloseLedger (tr ++ [(w, e)]) v := by
  obtain ⟨outcome, he, _⟩ := h.atExec (fun _ _ _ _ _ => trivial)
  refine ⟨hl.wf.executed h, h.setsNodup hl.nodup, ?_, ?_⟩
  · intro p
    have hnone : [(w, e)].filterMap (callbackOf p) = [] := by
      subst he
      rfl
    have hqueue : (v.procs p).answered.filterMap pendingClose =
        (w.procs p).answered.filterMap pendingClose ++
          (if q = p then [(c, r)].filterMap pendingClose else []) := by
      by_cases hq : q = p
      · subst hq
        rw [h.answered, List.filterMap_append, if_pos rfl]
      · rw [h.others p (Ne.symm hq), if_neg hq, List.append_nil]
    rw [List.filterMap_append, List.filterMap_append, hnone, hqueue, List.append_nil,
      ← List.append_assoc]
    exact List.rel_append (hl.matched p) (h.matched hl.wf hl.nodup hs p)
  · intro s hmem u roomId hn
    rcases List.mem_append.mp hmem with hold | hlast
    · exact hl.counted s hold u roomId hn
    · rw [List.mem_singleton.mp hlast, he] at hn
      cases hn

/-- The callback leaves the front of the queue and joins the run. -/
theorem CloseLedger.handled {i : Input} {x : Proc} (hl : CloseLedger tr w)
    (h : Handled w v e q i x) (hs : step w e = some v) : CloseLedger (tr ++ [(w, e)]) v := by
  refine ⟨hl.wf.handled h, by rw [h.db]; exact hl.nodup, ?_, ?_⟩
  · intro p
    have hnone : [(w, e)].filterMap (closeOf p) = [] := by
      have hin := h.input
      cases e with
      | exec _ _ => cases hin
      | _ => rfl
    have hqueue : [(w, e)].filterMap (callbackOf p) ++ (v.procs p).answered.filterMap pendingClose =
        (w.procs p).answered.filterMap pendingClose := by
      rw [h.callbackOf hl.wf hs p]
      by_cases hq : q = p
      · subst hq
        obtain ⟨news, outs, heff⟩ := h.effect hl.wf
        rw [if_pos rfl, heff.answered, h.answered, List.filterMap_append]
      · rw [if_neg hq, List.nil_append, (h.other_conns p (Ne.symm hq)).2.2.2]
    rw [List.filterMap_append, List.filterMap_append, hnone, List.append_nil, List.append_assoc,
      hqueue]
    exact hl.matched p
  · intro s hmem u roomId hn
    rcases List.mem_append.mp hmem with hold | hlast
    · exact hl.counted s hold u roomId hn
    · rw [List.mem_singleton.mp hlast] at hn ⊢
      have hsent := hn
      rw [h.notices hl.wf hs] at hsent
      obtain ⟨c, hc, hto⟩ := List.mem_filterMap.mp hsent
      obtain ⟨hd, r, rfl, herr⟩ := issued_roomClose hto hc
      refine ⟨q, w.toldClosed e roomId.text, ?_, ?_⟩
      · simp [callbackOf, h.input, herr]
      · exact List.mem_filterMap.mpr ⟨_, hn, by simp⟩

end

/-- Every membership that a `delRoom` transaction ends is announced once, by the
callback of that transaction, and there are no other close notices. -/
theorem closes_told_once {tr : List (World × Event)} {w : World}
    (hpath : Run.Path step World.initial tr w) :
    (∀ p, List.Forall₂ ToldOnce (tr.filterMap (closeOf p))
      (tr.filterMap (callbackOf p) ++ (w.procs p).answered.filterMap pendingClose)) ∧
    ∀ s ∈ tr, ∀ u roomId, (u, .roomClose roomId) ∈ s.1.notices s.2 →
      ∃ p users, callbackOf p s = some (roomId.text, users) ∧ u ∈ users := by
  have hstart : CloseLedger [] World.initial := by
    refine ⟨WF.initial, fun _ => List.nodup_nil, fun _ => .nil, ?_⟩
    intro s hs
    cases hs
  have hledger := Run.Path.invariant CloseLedger hstart ?_ hpath
  · exact ⟨hledger.matched, hledger.counted⟩
  · intro tr w e v hl hs
    rcases step_cases w v e hs with ⟨q, c, r, hx⟩ | ⟨q, i, x, hx⟩
    · exact hl.executed hx hs
    · exact hl.handled hx hs

theorem closes_told_once_joined :
    (Run.steps step World.initial closeTrace).filterMap (closeOf 0) = [(['1'], [['u']])] ∧
      List.Forall₂ ToldOnce [(['1'], [['u']])]
        ((Run.steps step World.initial closeTrace).filterMap (callbackOf 0)) := by
  obtain ⟨hrun, hcloses, hdone⟩ : (Run.runs step World.initial closeTrace).isSome = true ∧
      (Run.steps step World.initial closeTrace).filterMap (closeOf 0) = [(['1'], [['u']])] ∧
      ((Run.ends step World.initial closeTrace).procs 0).answered.filterMap pendingClose = [] := by
    decide +kernel
  have htold := (closes_told_once (Run.path_ends closeTrace hrun)).1 0
  rw [hcloses, hdone, List.append_nil] at htold
  exact ⟨hcloses, htold⟩

end NodeServer

import NodeServer.Proof.Rooms

/-! # Closing a room

`addRoomUser` looks for the room, reads its members and adds the user in three
round trips; `delRoom` looks for the room and deletes it in a transaction. A
transaction that runs between the check and the `SADD` of a join leaves a
member set without a room. -/

namespace NodeServer

open DBModelKeys

/- A join that has found the room and has still to add its user. -/
def Proc.JoinPending (x : Proc) (room : Str) : Prop :=
  (∃ user roomId hd k ks, (.addRoomUserKeys (some user) roomId hd, .array (k :: ks)) ∈ x.answered ∧
    roomId.text = room) ∨
  (∃ user roomId hd, .addRoomUserMembers user roomId hd ∈ x.calls ∧ roomId.text = room) ∨
  (∃ user roomId hd, .addRoomUserAdd user roomId hd ∈ x.sent ∧ roomId.text = room)

/- The transaction that closes room `n` runs while no such join is pending. -/
def CloseAlone (n : ℕ) (w : World) : Event → Prop
  | .exec p (.done _) => ∀ roomId hd, (w.procs p).sent.head? = some (.delRoomExec roomId hd) →
      roomId.text = natText n → ∀ q, ¬ (w.procs q).JoinPending (natText n)
  | _ => True

def RoomOpen (w : World) (n : ℕ) : Prop := w.db.get (roomPattern (natText n)) ≠ none

def ClosedEmpty (w : World) (n : ℕ) : Prop := ¬ RoomOpen w n → members w.db (natText n) = []

/- Whoever is in the room or about to be has found it, and it is still there. -/
structure RoomKept (w : World) (n : ℕ) : Prop where
  pending : ∀ q, (w.procs q).JoinPending (natText n) → RoomOpen w n
  inside : ∀ m, m ∈ members w.db (natText n) → RoomOpen w n

section

variable {w v : World} {e : Event} {p : Pid} {n : ℕ}

theorem Executed.found {c : Call} {r : Store.Reply} (h : Executed w v e p c r) (user : Option User)
    (roomId : JsVal) (hd : Handler) (k : Str) (ks : List Str)
    (hc : c = .addRoomUserKeys user roomId hd) (hr : r = .array (k :: ks)) :
    Glob.stringmatch (roomPattern roomId.text) k = true ∧ w.db.get k ≠ none := by
  subst hc hr
  rcases h.db with ⟨order, _, _, hrun⟩ | ⟨_, _, _, hfail⟩
  · obtain ⟨heq, _, hmem⟩ := Store.keys_inOrder order _ w.db _ hrun
    cases heq
    obtain ⟨⟨value, hv⟩, hmatch⟩ := (hmem k).mp (List.mem_cons_self ..)
    exact ⟨hmatch, by rw [hv]; exact Option.some_ne_none _⟩
  · cases hfail

theorem Executed.joinPending {c : Call} {r : Store.Reply} (h : Executed w v e p c r) (q : Pid)
    (hj : (v.procs q).JoinPending (natText n)) :
    (w.procs q).JoinPending (natText n) ∨
      (RoomOpen w n ∧ ∃ user roomId hd, c = .addRoomUserKeys user roomId hd) := by
  rcases hj with ⟨user, roomId, hd, k, ks, hm, ht⟩ | ⟨user, roomId, hd, hm, ht⟩ |
    ⟨user, roomId, hd, hm, ht⟩
  · rcases h.mem_answered q _ _ hm with hm | ⟨_, hc, hr⟩
    · exact Or.inl (Or.inl ⟨user, roomId, hd, k, ks, hm, ht⟩)
    · obtain ⟨hmatch, hk⟩ := h.found (some user) roomId hd k ks hc.symm hr.symm
      rw [ht, roomPattern_decimal] at hmatch
      rw [hmatch] at hk
      exact Or.inr ⟨hk, _, _, _, hc.symm⟩
  · rw [h.calls q] at hm
    exact Or.inl (Or.inr (Or.inl ⟨user, roomId, hd, hm, ht⟩))
  · exact Or.inl (Or.inr (Or.inr ⟨user, roomId, hd, h.sent_back hm, ht⟩))

theorem RoomKept.executed {c : Call} {r : Store.Reply} (hw : WF w) (hk : RoomKept w n)
    (hcond : CloseAlone n w e) (h : Executed w v e p c r) : RoomKept v n := by
  have hjoin : ∀ q, (v.procs q).JoinPending (natText n) → RoomOpen w n := by
    intro q hj
    rcases h.joinPending q hj with hj | ⟨ho, _⟩
    · exact hk.pending q hj
    · exact ho
  have hmem : ∀ m, m ∈ members v.db (natText n) → RoomOpen w n := by
    intro m hm
    rcases h.member_cases hw (natText n) m with hsame | ⟨user, roomId, hd, _, rfl, ht, _⟩ |
      ⟨_, _, _, _, _, _, hn⟩ | ⟨_, _, _, _, _, _, hn⟩
    · exact hk.inside m (hsame.mp hm)
    · exact hk.pending p (Or.inr (Or.inr ⟨user, roomId, hd, h.mem_sent, ht⟩))
    · exact absurd hm hn
    · rw [hn] at hm
      cases hm
  rcases h.room_cases hw (natText n) with hsame | ⟨_, _, _, _, hopen⟩ |
    ⟨roomId, hd, order, rfl, ht, he, _⟩
  · have hopen : RoomOpen w n → RoomOpen v n := by
      intro ho
      rw [RoomOpen, hsame]
      exact ho
    exact ⟨fun q hj => hopen (hjoin q hj), fun m hm => hopen (hmem m hm)⟩
  · exact ⟨fun _ _ => hopen, fun _ _ => hopen⟩
  · -- the room is closed: nobody was about to join, and its members are gone
    obtain ⟨_, hempty⟩ := h.closed he
    have hnone : ∀ q, ¬ (w.procs q).JoinPending (natText n) := by
      rw [he] at hcond
      exact hcond roomId hd h.sent_head ht
    refine ⟨?_, ?_⟩
    · intro q hj
      rcases h.joinPending q hj with hj | ⟨_, _, _, _, hc⟩
      · exact absurd hj (hnone q)
      · cases hc
    · intro m hm
      rw [← ht, hempty] at hm
      cases hm

theorem Handled.joinPending {i : Input} {x : Proc} (h : Handled w v e p i x) (hw : WF w) (q : Pid)
    (room : Str) (hj : (v.procs q).JoinPending room) : (w.procs q).JoinPending room := by
  rcases hj with ⟨user, roomId, hd, k, ks, hm, ht⟩ | ⟨user, roomId, hd, hm, ht⟩ |
    ⟨user, roomId, hd, hm, ht⟩
  · exact Or.inl ⟨user, roomId, hd, k, ks, h.answered_sub hw q _ hm, ht⟩
  · rcases h.call_cases hw q _ hm with hm | ⟨rfl, ho⟩
    · exact Or.inr (Or.inl ⟨user, roomId, hd, hm, ht⟩)
    · cases ho with
      | addRoomUserMembers _ _ _ k ks replied =>
        exact Or.inl ⟨user, roomId, hd, k, ks, h.reply_mem _ _ replied, ht⟩
  · rcases h.sent_cases hw q _ hm with hm | ⟨rfl, ho⟩
    · exact Or.inr (Or.inr ⟨user, roomId, hd, hm, ht⟩)
    · cases ho with
      | addRoomUserAdd _ _ _ r replied =>
        refine Or.inr (Or.inl ⟨user, roomId, hd, ?_, ht⟩)
        exact List.mem_append_left _ (List.mem_map_of_mem (h.reply_mem _ _ replied))

theorem RoomKept.step (hw : WF w) (hk : RoomKept w n) (hcond : CloseAlone n w e)
    (h : NodeServer.step w e = some v) : RoomKept v n := by
  rcases step_cases w v e h with ⟨p, c, r, hx⟩ | ⟨p, i, x, hx⟩
  · exact hk.executed hw hcond hx
  · refine ⟨?_, ?_⟩
    · intro q hj
      rw [RoomOpen, hx.db]
      exact hk.pending q (hx.joinPending hw q _ hj)
    · intro m hm
      rw [hx.db] at hm
      rw [RoomOpen, hx.db]
      exact hk.inside m hm

end

theorem closed_room_empty (n : ℕ) (w : World)
    (hreach : Run.Reach step (CloseAlone n) World.initial w) : ClosedEmpty w n := by
  have hinv := Run.Reach.invariant (fun w => WF w ∧ RoomKept w n) ⟨WF.initial, ?_, ?_⟩ ?_ hreach
  · intro hclosed
    by_contra hne
    obtain ⟨m, hm⟩ := List.exists_mem_of_ne_nil _ hne
    exact hclosed (hinv.2.inside m hm)
  · intro q hj
    rcases hj with ⟨_, _, _, _, _, hm, _⟩ | ⟨_, _, _, hm, _⟩ | ⟨_, _, _, hm, _⟩ <;> cases hm
  · intro m hm
    cases hm
  · intro w e v ⟨hw, hk⟩ hcond hs
    exact ⟨hw.step hs, hk.step hw hcond hs⟩

/-! ### A join before the close, and one across it -/

def Call.isJoin : Call → Bool
  | .addRoomUserKeys _ _ _ | .addRoomUserMembers _ _ _ | .addRoomUserAdd _ _ _ => true
  | _ => false

theorem Proc.JoinPending.call {x : Proc} {room : Str} (h : x.JoinPending room) :
    ∃ c ∈ x.calls, c.isJoin = true := by
  rcases h with ⟨user, roomId, hd, k, ks, hm, _⟩ | ⟨user, roomId, hd, hm, _⟩ | ⟨user, roomId, hd, hm, _⟩
  · exact ⟨_, List.mem_append_left _ (List.mem_map_of_mem hm), rfl⟩
  · exact ⟨_, hm, rfl⟩
  · exact ⟨_, List.mem_append_right _ hm, rfl⟩

def closeAloneTest (ps : List Pid) (w : World) : Event → Bool
  | .exec p _ =>
    match (w.procs p).sent with
    | .delRoomExec _ _ :: _ => ps.all fun q => !(w.procs q).calls.any Call.isJoin
    | _ => true
  | _ => true

theorem closeAloneTest_sound (ps : List Pid) (n : ℕ) (w : World) (e : Event)
    (hidle : ∀ q, q ∉ ps → w.procs q = Proc.initial) (h : closeAloneTest ps w e = true) :
    CloseAlone n w e := by
  cases e with
  | exec p outcome =>
    cases outcome with
    | failed message => trivial
    | done order =>
      intro roomId hd hhead _ q hj
      obtain ⟨c, hc, hjoin⟩ := hj.call
      by_cases hq : q ∈ ps
      · obtain ⟨rest, hsent⟩ := List.head?_eq_some_iff.mp hhead
        simp only [closeAloneTest, hsent, List.all_eq_true, Bool.not_eq_true',
          List.any_eq_false] at h
        exact h q hq c hc hjoin
      · rw [hidle q hq] at hc
        cases hc
  | _ => trivial

/- A logs in and creates room 1. -/
def roomTrace : List Event :=
  [.connect 0 ['A'] 1, .message 0 (socketIdOf ['A']) (loginRequest ['u']) 2,
    .exec 0 (.done []), .reply 0, .exec 0 (.done []), .reply 0, .exec 0 (.done []), .reply 0,
    .message 0 (socketIdOf ['A']) (Route.roomCreate.request none .undefined) 3,
    .exec 0 (.done []), .reply 0, .exec 0 (.done []), .reply 0]

/- A joins the room. -/
def joinedTrace : List Event :=
  roomTrace ++ [.message 0 (socketIdOf ['A']) (Route.roomIn.request none (.str ['1'])) 4,
    .exec 0 (.done [roomPattern ['1']]), .reply 0, .exec 0 (.done []), .reply 0,
    .exec 0 (.done []), .reply 0]

/- Redis serves the next call of a process, and its callback runs. -/
def served (p : Pid) (order : List Str) : List Event := [.exec p (.done order), .reply p]

/- B logs in as another user on process 1, with room 1 open. -/
def twoUsersTrace : List Event :=
  roomTrace ++ [.connect 1 ['B'] 4, .message 1 (socketIdOf ['B']) (loginRequest ['v']) 5] ++
    served 1 [] ++ served 1 [] ++ served 1 []

def roomInOf (p : Pid) (suffix : Str) (now : ℕ) : Event :=
  .message p (socketIdOf suffix) (Route.roomIn.request none (.str ['1'])) now

/- The room is closed after the join. -/
def closeTrace : List Event :=
  joinedTrace ++ [.message 0 (socketIdOf ['A']) (Route.roomClose.request none (.str ['1'])) 5,
    .exec 0 (.done [roomPattern ['1']]), .reply 0, .exec 0 (.done [['u']]), .reply 0]

theorem closed_room_empty_after_join :
    ClosedEmpty (Run.ends step World.initial closeTrace) 1 :=
  closed_room_empty 1 _ (reach_of_test [0] (closeAloneTest [0]) (closeAloneTest_sound [0] 1)
    closeTrace (by decide +kernel) (by decide +kernel))

/- The close runs between the check of the join and its `SADD`. -/
def closeDuringJoinTrace : List Event :=
  roomTrace ++ [.message 0 (socketIdOf ['A']) (Route.roomIn.request none (.str ['1'])) 4,
    .message 0 (socketIdOf ['A']) (Route.roomClose.request none (.str ['1'])) 5,
    .exec 0 (.done [roomPattern ['1']]), .exec 0 (.done [roomPattern ['1']]), .reply 0, .reply 0,
    .exec 0 (.done []), .exec 0 (.done []), .reply 0, .reply 0, .exec 0 (.done []), .reply 0]

theorem closed_room_with_member :
    ¬ ∀ (n : ℕ) (w : World), Reachable w → Quiescent w → 1 ≤ n → n ≤ maxId w.db →
      ClosedEmpty w n := by
  intro hall
  obtain ⟨hrun, hdone, hmax, hleft⟩ :
      (Run.runs step World.initial closeDuringJoinTrace).isSome = true ∧
      ((closeDuringJoinTrace.flatMap Event.pids).all fun p =>
        ((Run.ends step World.initial closeDuringJoinTrace).procs p).quiet) = true ∧
      1 ≤ maxId (Run.ends step World.initial closeDuringJoinTrace).db ∧
      members (Run.ends step World.initial closeDuringJoinTrace).db (natText 1) ≠ [] := by
    decide +kernel
  have hquiet := quiescent_ends closeDuringJoinTrace _ (Run.runs_ends hrun) hdone
  have hclosed : (Run.ends step World.initial closeDuringJoinTrace).db.get
      (roomPattern (natText 1)) = none := rfl
  exact hleft (hall 1 _ (Run.reach_ends closeDuringJoinTrace hrun) hquiet (by decide) hmax
    fun ho => ho hclosed)

end NodeServer

import NodeServer.Spec.RoomView
import NodeServer.Proof.Leaving
import NodeServer.Proof.Queues

/-! # One room operation in flight

`RoomView.after` says, from any call of a room operation, which view the
operation ends with. Executing the call and running its callback keep that
view; lookups for notices and logouts in the background do not touch it. -/

namespace NodeServer

open DBModelKeys

def roomView (w : World) (p : Pid) (s u : Str) : RoomView where
  rooms := { n | RoomOpen w n }
  member := { room | u ∈ members w.db room }
  noted := (w.procs p).ctxRoomId s

/- What the servers do by themselves while no command fails. -/
def Event.internal : Event → Bool
  | .exec _ (.done _) | .reply _ | .deliver _ _ _ => true
  | _ => false

/-! ### The operation in flight -/

def LookupFor.background : LookupFor → Bool
  | .notice _ .nobody => true
  | _ => false

/- Lookups for notices and the `DEL`s of logouts. -/
def Call.background : Call → Bool
  | .lookupKeys _ next | .lookupHash _ _ _ next => next.background
  | .logoutDel _ => true
  | _ => false

/- The calls of a room operation of `u` on the connection. -/
def Call.opOf (s u : Str) : Call → Prop
  | .addRoomUserKeys (some user) _ hd | .addRoomUserMembers user _ hd | .addRoomUserAdd user _ hd =>
    user.userId = u ∧ hd.socketId = s
  | .delRoomUserMembers (some user) _ (some hd) | .delRoomUserRem user _ (some hd) =>
    user.userId = u ∧ hd.socketId = s
  | .delRoomKeys (some _) _ _ | .delRoomExec _ _ => True
  | _ => False

/- The calls whose commands write room keys or member sets. -/
def Call.writesRooms : Call → Bool
  | .addRoomSet _ _ | .delRoomExec _ _ | .addRoomUserAdd _ _ _ | .delRoomUserRem _ _ _ => true
  | _ => false

/- The calls whose callbacks note or forget a room. -/
def Call.notesRoom : Call → Bool
  | .addRoomUserAdd _ _ _ | .delRoomUserRem _ _ _ => true
  | _ => false

/- The call that follows on a reply. -/
def Call.next : Call → Store.Reply → Option Call
  | .addRoomUserKeys (some user) roomId hd, .array (_ :: _) => some (.addRoomUserMembers user roomId hd)
  | .addRoomUserMembers user roomId hd, _ => some (.addRoomUserAdd user roomId hd)
  | .delRoomUserMembers (some user) roomId hd, _ => some (.delRoomUserRem user roomId hd)
  | .delRoomKeys (some _) roomId hd, .array (_ :: _) => some (.delRoomExec roomId hd)
  | _, _ => none

/- The view an operation ends with, from a call of it that is still to be
executed or has been answered. -/
noncomputable def RoomView.after (v : RoomView) : Call → Option Store.Reply → RoomView
  | .addRoomUserKeys _ roomId _, none => v.serve (.roomIn roomId)
  | .addRoomUserKeys _ roomId _, some (.array (_ :: _)) => v.joined roomId
  | .addRoomUserMembers _ roomId _, _ => v.joined roomId
  | .addRoomUserAdd _ roomId _, none => v.joined roomId
  | .addRoomUserAdd _ _ _, some (.error _) => v
  | .addRoomUserAdd _ roomId _, some _ => { v with noted := roomId }
  | .delRoomUserMembers _ roomId _, _ => v.left roomId
  | .delRoomUserRem _ roomId _, none => v.left roomId
  | .delRoomUserRem _ _ _, some (.error _) => v
  | .delRoomUserRem _ _ _, some _ => { v with noted := .undefined }
  | .delRoomKeys _ roomId _, none => v.serve (.roomClose roomId)
  | .delRoomKeys _ roomId _, some (.array (_ :: _)) => v.closed roomId
  | .delRoomExec roomId _, none => v.closed roomId
  | _, _ => v

theorem opOf_not_background {s u : Str} {c : Call} (h : c.opOf s u) : c.background = false := by
  unfold Call.background
  split
  · exact h.elim
  · exact h.elim
  · exact h.elim
  · rfl

theorem Call.opOf_next {s u : Str} {c c' : Call} {r : Store.Reply} (h : c.opOf s u)
    (hn : c.next r = some c') : c'.opOf s u := by
  unfold Call.next at hn
  split at hn
  · cases hn
    exact h
  · cases hn
    exact h
  · next user roomId hd =>
    cases hn
    cases hd with
    | none => exact h.elim
    | some hd => exact h
  · cases hn
    exact h
  · cases hn

/-! ### Executing a call of the operation -/

theorem finds_iff {w : World} (hw : WF w) (p : Pid) (s u : Str) (roomId : JsVal) :
    (roomView w p s u).Finds roomId ↔
      ∃ k, w.db.get k ≠ none ∧ Glob.stringmatch (roomPattern roomId.text) k = true := by
  constructor
  · rintro ⟨n, hn, hmatch⟩
    exact ⟨_, hn, hmatch⟩
  · rintro ⟨k, hk, hmatch⟩
    have hform : roomPattern roomId.text = (RoomIdKey ++ ['-']) ++ roomId.text := by
      simp [roomPattern]
    have hstem := hmatch
    rw [hform, Glob.stringmatch_stem _ _ _ (by decide)] at hstem
    obtain ⟨t, rfl, _⟩ := hstem
    have hroom : RoomIdKey ++ ['-'] ++ t = roomPattern t := by simp [roomPattern]
    rw [hroom] at hk hmatch
    obtain ⟨value, hv⟩ := Option.ne_none_iff_exists'.mp hk
    obtain ⟨n, rfl, _⟩ := entry_room w.own w.db hw.db hv
    exact ⟨n, hk, hmatch⟩

section

variable {w v : World} {e : Event} {p q : Pid} {c : Call} {r : Store.Reply} {s u : Str}

theorem Executed.internal_done (h : Executed w v e q c r) (he : e.internal = true) :
    ∃ order, e = .exec q (.done order) ∧ v.db = (c.txn.run w.db).1 ∧
      (c.txn.run w.db).2.inOrder order = some r := by
  rcases h.db with hd | ⟨message, hf, _⟩
  · exact hd
  · rw [hf] at he
    cases he

theorem Executed.keys_reply (h : Executed w v e q c r) (hw : WF w) (he : e.internal = true)
    (p : Pid) (s u : Str) (roomId : JsVal) (hc : c.txn = .one (.keys (roomPattern roomId.text))) :
    (r = .array [] ∧ ¬ (roomView w p s u).Finds roomId) ∨
      ∃ k ks, r = .array (k :: ks) ∧ (roomView w p s u).Finds roomId := by
  obtain ⟨order, _, _, hr⟩ := h.internal_done he
  rw [hc] at hr
  obtain ⟨rfl, _, hmem⟩ := Store.keys_inOrder order _ w.db r hr
  rw [finds_iff hw]
  cases order with
  | nil =>
    refine Or.inl ⟨rfl, ?_⟩
    rintro ⟨k, hk, hmatch⟩
    cases (hmem k).mpr ⟨Option.ne_none_iff_exists'.mp hk, hmatch⟩
  | cons k ks =>
    obtain ⟨⟨value, hv⟩, hmatch⟩ := (hmem k).mp (List.mem_cons_self ..)
    exact Or.inr ⟨k, ks, rfl, k, by rw [hv]; exact Option.some_ne_none _, hmatch⟩

theorem Executed.view_same (h : Executed w v e q c r) (hw : WF w) (hc : c.writesRooms = false) :
    roomView v p s u = roomView w p s u := by
  refine RoomView.ext ?_ ?_ (h.ctx p s)
  · ext n
    show RoomOpen v n ↔ RoomOpen w n
    rcases h.room_cases hw (natText n) with hsame | ⟨m, hd, rfl, _⟩ | ⟨roomId, hd, _, rfl, _⟩
    · rw [RoomOpen, RoomOpen, hsame]
    · cases hc
    · cases hc
  · ext room
    show u ∈ members v.db room ↔ u ∈ members w.db room
    rcases h.member_cases hw room u with hsame | ⟨user, roomId, hd, _, rfl, _⟩ |
      ⟨user, roomId, hd, rfl, _⟩ | ⟨roomId, hd, _, rfl, _⟩
    · exact hsame
    · cases hc
    · cases hc
    · cases hc

theorem Executed.view_added {user : User} {roomId : JsVal} {hd : Handler}
    (h : Executed w v e q (.addRoomUserAdd user roomId hd) r) (hw : WF w)
    (hr : ∀ err, r ≠ .error err) (hu : user.userId = u) :
    roomView v p s u = { roomView w p s u with
      member := insert roomId.text (roomView w p s u).member } := by
  refine RoomView.ext ?_ ?_ (h.ctx p s)
  · ext n
    show RoomOpen v n ↔ RoomOpen w n
    rcases h.room_cases hw (natText n) with hsame | ⟨_, _, hc, _⟩ | ⟨_, _, _, hc, _⟩
    · rw [RoomOpen, RoomOpen, hsame]
    · cases hc
    · cases hc
  · ext room
    show u ∈ members v.db room ↔ room = roomId.text ∨ u ∈ members w.db room
    obtain ⟨_, hin⟩ := h.added hw hr
    rw [hu] at hin
    by_cases hroom : room = roomId.text
    · simp [hroom, hin]
    · rcases h.member_cases hw room u with hsame | ⟨_, _, _, _, hc, ht, _⟩ | ⟨_, _, _, hc, _⟩ |
        ⟨_, _, _, hc, _⟩
      · simp [hroom, hsame]
      · cases hc
        exact absurd ht.symm hroom
      · cases hc
      · cases hc

theorem Executed.view_removed {user : User} {roomId : JsVal} {hd : Option Handler}
    (h : Executed w v e q (.delRoomUserRem user roomId hd) r) (hw : WF w) (he : e.internal = true)
    (hu : user.userId = u) :
    roomView v p s u = { roomView w p s u with
      member := (roomView w p s u).member \ {roomId.text} } := by
  refine RoomView.ext ?_ ?_ (h.ctx p s)
  · ext n
    show RoomOpen v n ↔ RoomOpen w n
    rcases h.room_cases hw (natText n) with hsame | ⟨_, _, hc, _⟩ | ⟨_, _, _, hc, _⟩
    · rw [RoomOpen, RoomOpen, hsame]
    · cases hc
    · cases hc
  · ext room
    show u ∈ members v.db room ↔ u ∈ members w.db room ∧ room ≠ roomId.text
    have hout : u ∉ members v.db roomId.text := by
      rw [← hu]
      refine h.removed ?_
      rintro message rfl
      cases he
    by_cases hroom : room = roomId.text
    · simp [hroom, hout]
    · rcases h.member_cases hw room u with hsame | ⟨_, _, _, _, hc, _⟩ | ⟨_, _, _, hc, ht, _⟩ |
        ⟨_, _, _, hc, _⟩
      · simp [hroom, hsame]
      · cases hc
      · cases hc
        exact absurd ht.symm hroom
      · cases hc

theorem Executed.view_closed {roomId : JsVal} {hd : Handler}
    (h : Executed w v e q (.delRoomExec roomId hd) r) (hw : WF w) (he : e.internal = true) :
    roomView v p s u = (roomView w p s u).closed roomId := by
  obtain ⟨order, hdone, _⟩ := h.internal_done he
  obtain ⟨hkey, hempty⟩ := h.closed hdone
  refine RoomView.ext ?_ ?_ (h.ctx p s)
  · ext n
    show RoomOpen v n ↔ RoomOpen w n ∧ natText n ≠ roomId.text
    by_cases hroom : natText n = roomId.text
    · simp [RoomOpen, hroom, hkey]
    · rcases h.room_cases hw (natText n) with hsame | ⟨_, _, hc, _⟩ | ⟨_, _, _, hc, ht, _⟩
      · simp [RoomOpen, hroom, hsame]
      · cases hc
      · cases hc
        exact absurd ht.symm hroom
  · ext room
    show u ∈ members v.db room ↔ u ∈ members w.db room ∧ room ≠ roomId.text
    by_cases hroom : room = roomId.text
    · simp [hroom, hempty]
    · rcases h.member_cases hw room u with hsame | ⟨_, _, _, _, hc, _⟩ | ⟨_, _, _, hc, _⟩ |
        ⟨_, _, _, hc, ht, _⟩
      · simp [hroom, hsame]
      · cases hc
      · cases hc
      · cases hc
        exact absurd ht.symm hroom

/-- Executing a call of the operation does not change where it ends. -/
theorem Executed.after_eq (h : Executed w v e q c r) (hw : WF w) (he : e.internal = true)
    (hc : c.opOf s u) :
    (roomView v p s u).after c (some r) = (roomView w p s u).after c none := by
  cases c with
  | addRoomUserKeys user roomId hd =>
    rw [h.view_same hw rfl]
    rcases h.keys_reply hw he p s u roomId rfl with ⟨rfl, hf⟩ | ⟨k, ks, rfl, hf⟩
    · simp only [RoomView.after, RoomView.serve, hf, if_false]
    · simp only [RoomView.after, RoomView.serve, hf, if_true]
  | addRoomUserMembers user roomId hd =>
    rw [h.view_same hw rfl]
    rfl
  | addRoomUserAdd user roomId hd =>
    obtain ⟨order, hdone, _⟩ := h.internal_done he
    have hr := h.member_reply hw hdone (Or.inl rfl)
    rw [h.view_added hw hr hc.1]
    cases r with
    | error err => exact absurd rfl (hr err)
    | _ => rfl
  | delRoomUserMembers user roomId hd =>
    rw [h.view_same hw rfl]
    rfl
  | delRoomUserRem user roomId hd =>
    obtain ⟨order, hdone, _⟩ := h.internal_done he
    have hr := h.member_reply hw hdone (Or.inr rfl)
    cases hd with
    | none => exact hc.elim
    | some hd =>
      rw [h.view_removed hw he hc.1]
      cases r with
      | error err => exact absurd rfl (hr err)
      | _ => rfl
  | delRoomKeys user roomId hd =>
    rw [h.view_same hw rfl]
    rcases h.keys_reply hw he p s u roomId rfl with ⟨rfl, hf⟩ | ⟨k, ks, rfl, hf⟩
    · simp only [RoomView.after, RoomView.serve, hf, if_false]
    · simp only [RoomView.after, RoomView.serve, hf, if_true]
  | delRoomExec roomId hd =>
    rw [h.view_closed hw he]
    rfl
  | _ => exact hc.elim

end

/-! ### Which operation is in flight -/

/- The calls in flight but those in the background, with their replies. -/
def Proc.ops (x : Proc) : List (Call × Option Store.Reply) :=
  (x.answered.filter fun cr => !cr.1.background).map (fun cr => (cr.1, some cr.2)) ++
    (x.sent.filter fun c => !c.background).map fun c => (c, none)

section

variable {w v : World} {e : Event} {p q : Pid} {c : Call} {r : Store.Reply} {s u : Str}

theorem ops_flight (x : Proc) : x.ops = x.flight fun c => !c.background := by
  simp only [Proc.ops, Proc.flight, Proc.queue, List.filter_append, List.filter_map]
  rfl

theorem Executed.ops_background (h : Executed w v e q c r) (hc : c.background = true) (p : Pid) :
    (v.procs p).ops = (w.procs p).ops := by
  rw [ops_flight, ops_flight]
  exact h.flight_other (by rw [hc]; rfl) p

theorem Executed.ops_moves (h : Executed w v e p c r) (hc : c.background = false)
    (hone : (w.procs p).ops.length ≤ 1) :
    (w.procs p).ops = [(c, none)] ∧ (v.procs p).ops = [(c, some r)] := by
  rw [ops_flight] at hone ⊢
  rw [ops_flight]
  exact h.flight_moves (by rw [hc]; rfl) hone

variable {i : Input} {x : Proc}

theorem Handled.ops_issued (h : Handled w v e p i x) (hw : WF w) :
    (w.procs p).ops = (i.replied.filter fun cr => !cr.1.background).map
        (fun cr => (cr.1, some cr.2)) ++ x.ops ∧
      (v.procs p).ops = x.ops ++
        ((x.issued p i).filter fun c => !c.background).map fun c => (c, none) := by
  rw [ops_flight, ops_flight, ops_flight]
  exact h.flight hw _

/- Replies to background calls and forwarded notices. -/
def Input.background : Input → Prop
  | .reply c _ => c.background = true
  | .packet _ => True
  | _ => False

theorem Resolves.background {next : LookupFor} {userList : List User}
    (h : Resolves i x next userList) (hi : i.background) : next.background = true := by
  rcases h with ⟨userId, r, rfl, _⟩ | ⟨k, found, res, rfl, _⟩
  · exact hi
  · exact hi

theorem Input.background.no_reply (hi : i.background) {c : Call} {r : Store.Reply}
    (h : i = .reply c r) (hc : c.background = false) : False := by
  subst h
  have hi : c.background = true := hi
  rw [hc] at hi
  cases hi

theorem Input.background.no_message (hi : i.background) {t : Str} {route : Route} {req : Request}
    {now : ℕ} (h : Asks i t route req now) : False := by
  rw [h.1] at hi
  exact hi

theorem Origin.background (ho : Origin p i x c) (hi : i.background) : c.background = true := by
  cases ho with
  | loginStart t req now userId connectTime asks given fresh => exact (hi.no_message asks).elim
  | notify userId notice => rfl
  | loginAgain l notice userList resolves => cases resolves.background hi
  | sendMsg t req now user toUserId asks logged => exact (hi.no_message asks).elim
  | hashFirst userId next key rest replied =>
    rw [replied] at hi
    exact hi
  | hashNext key₀ next key rest userList res replied =>
    rw [replied] at hi
    exact hi
  | loginSet l userList resolves => cases resolves.background hi
  | logoutDel user logsOut => rfl
  | addRoomIncr t req now hd asks => exact (hi.no_message asks).elim
  | addRoomSet user hd res replied => exact (hi.no_reply replied rfl).elim
  | addRoomNull user hd r replied null => exact (hi.no_reply replied rfl).elim
  | delRoomKeys t req now hd asks => exact (hi.no_message asks).elim
  | delRoomExec user roomId hd k ks replied => exact (hi.no_reply replied rfl).elim
  | broadcastKeys t req now hd asks => exact (hi.no_message asks).elim
  | broadcastMembers user roomId msg hd k ks replied => exact (hi.no_reply replied rfl).elim
  | roomListKeys t req now hd asks => exact (hi.no_message asks).elim
  | roomListGet key rest roomList hd c₀ r replied lists =>
    refine (hi.no_reply replied ?_).elim
    cases c₀ with
    | roomListKeys | roomListGet => rfl
    | _ => cases lists
  | addRoomUserKeys t req now hd asks hs => exact (hi.no_message asks).elim
  | addRoomUserMembers user roomId hd k ks replied => exact (hi.no_reply replied rfl).elim
  | addRoomUserAdd user roomId hd r replied => exact (hi.no_reply replied rfl).elim
  | roomOut t req now hd asks hs inRoom => exact (hi.no_message asks).elim
  | leave t user disconnects logged inRoom =>
    rcases disconnects with hc | hc | ⟨_, _, hc, _⟩
    · rw [hc] at hi
      exact hi.elim
    · rw [hc] at hi
      exact hi.elim
    · rw [hc] at hi
      exact hi.elim
  | delRoomUserRem user roomId hd r replied => exact (hi.no_reply replied rfl).elim

theorem Origin.next {c₀ : Call} {r₀ : Store.Reply} (ho : Origin p (.reply c₀ r₀) x c)
    (hc₀ : c₀.opOf s u) (hc : c.background = false) : c₀.next r₀ = some c := by
  cases ho with
  | delRoomExec user roomId hd k ks replied | addRoomUserMembers user roomId hd k ks replied =>
    cases replied
    rfl
  | addRoomUserAdd user roomId hd r replied | delRoomUserRem user roomId hd r replied =>
    cases replied
    rfl
  | loginStart t req now userId connectTime asks given fresh => cases asks.1
  | notify userId notice => cases hc
  | loginAgain l notice userList resolves | loginSet l userList resolves =>
    rcases resolves with ⟨_, _, hi, _⟩ | ⟨_, _, _, hi, _⟩
    · cases hi
      exact hc₀.elim
    · cases hi
      exact hc₀.elim
  | sendMsg t req now user toUserId asks logged => cases asks.1
  | hashFirst userId next key rest replied =>
    cases replied
    exact hc₀.elim
  | hashNext key₀ next key rest userList res replied =>
    cases replied
    exact hc₀.elim
  | logoutDel user logsOut => cases hc
  | addRoomSet user hd res replied =>
    cases replied
    exact hc₀.elim
  | addRoomNull user hd r replied null =>
    cases replied
    exact hc₀.elim
  | broadcastMembers user roomId msg hd k ks replied =>
    cases replied
    exact hc₀.elim
  | roomListGet key rest roomList hd c₁ r₁ replied lists =>
    cases replied
    cases c₀ with
    | roomListKeys | roomListGet => exact hc₀.elim
    | _ => cases lists
  | leave t user disconnects logged inRoom =>
    rcases disconnects with hi | hi | ⟨_, _, hi, _⟩
    · cases hi
    · cases hi
    · cases hi
  | addRoomIncr t req now hd asks | delRoomKeys t req now hd asks | broadcastKeys t req now hd asks
  | roomListKeys t req now hd asks => cases asks.1
  | addRoomUserKeys t req now hd asks hs => cases asks.1
  | roomOut t req now hd asks hs inRoom => cases asks.1

theorem next_sent (p : Pid) (x : Proc) {c c' : Call} {r : Store.Reply} (h : c.next r = some c') :
    c' ∈ (react p (.reply c r) x).sent := by
  unfold Call.next at h
  split at h
  · cases h
    exact List.mem_append_right _ (List.mem_singleton.mpr rfl)
  · cases h
    cases r with
    | array res => exact List.mem_append_right _ (List.mem_singleton.mpr rfl)
    | _ => exact List.mem_append_right _ (List.mem_singleton.mpr rfl)
  · cases h
    exact leave_continues p x _ _ _ r
  · cases h
    exact List.mem_append_right _ (List.mem_singleton.mpr rfl)
  · cases h

theorem Handled.ops_background (h : Handled w v e q i x) (hw : WF w) (hi : i.background) (p : Pid) :
    (v.procs p).ops = (w.procs p).ops := by
  by_cases hp : p = q
  · subst hp
    obtain ⟨hbefore, hafter⟩ := h.ops_issued hw
    have hnews : ((x.issued p i).filter fun c => !c.background) = [] := by
      rw [List.filter_eq_nil_iff]
      intro c hc
      simp [(h.issued_origin hw c hc).background hi]
    have hrep : (i.replied.filter fun cr => !cr.1.background) = [] := by
      cases i with
      | reply c r =>
        have hc : c.background = true := hi
        simp [Input.replied, hc]
      | packet packet => rfl
      | _ => exact hi.elim
    rw [hbefore, hafter, hnews, hrep]
    simp
  · rw [ops_flight, ops_flight, Proc.flight, h.queue_other hp]
    rfl

theorem Handled.ops_next (h : Handled w v e p (.reply c r) x) (hw : WF w) (hc : c.opOf s u)
    (hone : (w.procs p).ops.length ≤ 1) : (w.procs p).ops = [(c, some r)] ∧
      (v.procs p).ops = (c.next r).toList.map fun c' => (c', none) := by
  obtain ⟨outs, heff⟩ := h.effect_issued hw
  obtain ⟨hbefore, hafter⟩ := h.ops_issued hw
  have hbefore : (w.procs p).ops = (c, some r) :: x.ops := by
    rw [hbefore]
    simp [Input.replied, opOf_not_background hc]
  rw [hbefore] at hone
  have hrest : x.ops = [] := by simpa using hone
  have horigin : ∀ c' ∈ (x.issued p (.reply c r)).filter (fun c => !c.background),
      c.next r = some c' := by
    intro c' hc'
    obtain ⟨hm, hb⟩ := List.mem_filter.mp hc'
    exact (heff.origin c' hm).next hc (by simpa using hb)
  have hshort : ((x.issued p (.reply c r)).filter fun c => !c.background).length ≤ 1 := by
    refine heff.atMostOne _ ?_
    intro c' hc'
    unfold Call.chained
    split
    · cases hc'
    · cases hc'
    · rfl
  refine ⟨by rw [hbefore, hrest], ?_⟩
  rw [hafter, hrest, List.nil_append]
  congr 1
  cases hn : c.next r with
  | none =>
    rw [Option.toList_none, List.eq_nil_iff_forall_not_mem]
    intro c' hc'
    rw [hn] at horigin
    cases horigin c' hc'
  | some c' =>
    have hsent := next_sent p x hn
    rw [← h.after, heff.sent] at hsent
    have hfore : c'.background = false := opOf_not_background (Call.opOf_next hc hn)
    have hin : c' ∈ x.issued p (.reply c r) := by
      rcases List.mem_append.mp hsent with hold | hnew
      · have hop : (c', none) ∈ x.ops :=
          List.mem_append_right _ (List.mem_map_of_mem (List.mem_filter.mpr ⟨hold, by simp [hfore]⟩))
        rw [hrest] at hop
        cases hop
      · exact hnew
    have hmem : c' ∈ (x.issued p (.reply c r)).filter fun c => !c.background :=
      List.mem_filter.mpr ⟨hin, by simp [hfore]⟩
    cases hlist : (x.issued p (.reply c r)).filter fun c => !c.background with
    | nil =>
      rw [hlist] at hmem
      cases hmem
    | cons d rest =>
      rw [hlist] at hshort hmem
      have hnil : rest = [] := by simpa using hshort
      rw [hnil] at hmem ⊢
      rw [List.mem_singleton.mp hmem]
      rfl

theorem Handled.view_eq (h : Handled w v e q i x) :
    roomView v p s u = { roomView w p s u with noted := (v.procs p).ctxRoomId s } := by
  refine RoomView.ext ?_ ?_ rfl
  · ext n
    show RoomOpen v n ↔ RoomOpen w n
    rw [RoomOpen, RoomOpen, h.db]
  · ext room
    show u ∈ members v.db room ↔ u ∈ members w.db room
    rw [h.db]

theorem Handled.view_background (h : Handled w v e q i x) (hw : WF w) (hi : i.background) :
    roomView v p s u = roomView w p s u := by
  have hctx : (v.procs p).ctxRoomId s = (w.procs p).ctxRoomId s := by
    by_cases hp : p = q
    · subst hp
      rcases h.ctx_cases hw s with hsame | hnote
      · exact hsame
      · rcases hnote with ⟨_, _, _, hr, _⟩ | ⟨_, _, _, _, hr, _⟩
        · exact (hi.no_reply hr rfl).elim
        · exact (hi.no_reply hr rfl).elim
    · exact h.ctx_other hp
  rw [h.view_eq, hctx]
  rfl

theorem Handled.after_eq (h : Handled w v e p (.reply c r) x) (hw : WF w) (hc : c.opOf s u)
    (hown : w.own p s) : (roomView w p s u).after c (some r) =
      (c.next r).elim (roomView v p s u) fun c' => (roomView v p s u).after c' none := by
  -- only the last callbacks of a join and of a leave note a room
  have same : (∀ roomId, ¬ NotesRoom (.reply c r) s roomId) →
      roomView v p s u = roomView w p s u := by
    intro hnot
    rcases h.ctx_cases hw s with hsame | hnote
    · rw [h.view_eq, hsame]
      rfl
    · exact absurd hnote (hnot _)
  have quiet : c.notesRoom = false → roomView v p s u = roomView w p s u := by
    intro hc
    apply same
    rintro roomId (⟨user, hd, r', hi, _⟩ | ⟨user, room, hd, r', hi, _⟩)
    · cases hi
      cases hc
    · cases hi
      cases hc
  cases c with
  | addRoomUserKeys user roomId hd =>
    rw [quiet rfl]
    cases user with
    | none => exact hc.elim
    | some user =>
      cases r with
      | array ks =>
        cases ks with
        | nil => rfl
        | cons k ks => rfl
      | _ => rfl
  | addRoomUserMembers user roomId hd =>
    rw [quiet rfl]
    rfl
  | addRoomUserAdd user roomId hd =>
    obtain ⟨_, hs⟩ := hc
    cases r with
    | error err =>
      rw [same]
      · rfl
      · rintro roomId' (⟨_, _, _, hi, hr, _⟩ | ⟨_, _, _, _, hi, _⟩)
        · cases hi
          exact hr err rfl
        · cases hi
    | _ =>
      have hctx := h.joined_ctx rfl nofun (by rw [hs]; exact hown)
      rw [hs] at hctx
      rw [h.view_eq, hctx]
      rfl
  | delRoomUserMembers user roomId hd =>
    rw [quiet rfl]
    cases user with
    | none => exact hc.elim
    | some user => rfl
  | delRoomUserRem user roomId hd =>
    cases hd with
    | none => exact hc.elim
    | some hd =>
      obtain ⟨_, hs⟩ := hc
      cases r with
      | error err =>
        rw [same]
        · rfl
        · rintro roomId' (⟨_, _, _, hi, _⟩ | ⟨_, _, _, _, hi, hr, _⟩)
          · cases hi
          · cases hi
            exact hr err rfl
      | _ =>
        have hctx := h.left_ctx rfl nofun (by rw [hs]; exact hown)
        rw [hs] at hctx
        rw [h.view_eq, hctx]
        rfl
  | delRoomKeys user roomId hd =>
    rw [quiet rfl]
    cases user with
    | none => exact hc.elim
    | some user =>
      cases r with
      | array ks =>
        cases ks with
        | nil => rfl
        | cons k ks => rfl
      | _ => rfl
  | delRoomExec roomId hd =>
    rw [quiet rfl]
    rfl
  | _ => exact hc.elim

end

end NodeServer

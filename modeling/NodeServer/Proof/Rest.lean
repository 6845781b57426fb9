import NodeServer.Lib.Work
import NodeServer.Proof.Queues
import Mathlib.Tactic.Abel

/-! # The servers come to rest

When the clients send nothing more, Redis executes what was sent, callbacks run,
notices arrive and closing sockets give their close events, and all of this
issues further calls. How many depends on what Redis lists, so there is no bound
on the number of steps; but every call is followed by smaller ones only. -/

namespace NodeServer

open Relation

/- What happens without the clients doing anything: beside the steps of the servers
the close events of the sockets that are closing. -/
def Event.unprompted : Event → Bool
  | .exec _ _ | .reply _ | .deliver _ _ _ | .wsClose _ _ => true
  | _ => false

/-! ### Tasks -/

/- How far a lookup is from its end. -/
def LookupFor.rank : LookupFor → ℕ
  | .notice _ .nobody | .loginKick _ => 2
  | .notice _ (.login _) | .sendMsg _ _ => 4

/- The callback of a call issues calls of lower ranks only, but for the loops. -/
def Call.rank : Call → ℕ
  | .lookupKeys _ next => next.rank + 1
  | .lookupHash _ _ _ next => next.rank
  | .loginSet _ | .logoutDel _ => 1
  | .addRoomIncr _ _ => 2
  | .addRoomSet _ _ => 1
  | .delRoomKeys _ _ _ => 5
  | .delRoomExec _ _ => 4
  | .broadcastKeys _ _ _ _ => 5
  | .broadcastMembers _ _ _ _ => 4
  | .roomListKeys _ _ => 2
  | .roomListGet _ _ _ _ => 1
  | .addRoomUserKeys _ _ _ => 5
  | .addRoomUserMembers _ _ _ => 4
  | .addRoomUserAdd _ _ _ => 1
  | .delRoomUserMembers _ _ _ => 4
  | .delRoomUserRem _ _ _ => 1

/- The turns a loop has left. -/
def Call.turns : Call → ℕ
  | .lookupHash _ rest _ _ | .roomListGet _ rest _ _ => rest.length
  | _ => 0

/- A call as a task; executing it is a small part of it. -/
def Call.sentTask (c : Call) : ℕ × ℕ := (c.rank, 2 * c.turns + 1)

def Call.answeredTask (c : Call) : ℕ × ℕ := (c.rank, 2 * c.turns)

def packetTask : ℕ × ℕ := (0, 0)

/- A connection may still give a close event, and `disconnect` then issues calls. -/
def connTask : ℕ × ℕ := (6, 0)

/- The connections that are not closed. -/
def Proc.live (x : Proc) : List Str := x.conns.keys.filter fun s => x.ws s ≠ some .closed

def Proc.tasks (x : Proc) : Multiset (ℕ × ℕ) :=
  (x.sent.map Call.sentTask : Multiset (ℕ × ℕ)) + (x.answered.map fun cr => cr.1.answeredTask) +
    (x.outbox.map fun _ => packetTask) + (x.live.map fun _ => connTask)

abbrev Smaller : ℕ × ℕ → ℕ × ℕ → Prop := Prod.Lex (· < ·) (· < ·)

theorem smaller_wf : WellFounded Smaller := WellFounded.prod_lex wellFounded_lt wellFounded_lt

theorem Call.rank_pos (c : Call) : 0 < c.rank := by
  cases c with
  | lookupKeys userId next => exact Nat.succ_pos _
  | lookupHash key rest userList next =>
    cases next with
    | notice notice after => cases after <;> simp [Call.rank, LookupFor.rank]
    | _ => simp [Call.rank, LookupFor.rank]
  | _ => simp [Call.rank]

theorem fanOut_rank {notice : Notice} {users : List Str} {d : Call} (hd : d ∈ fanOut notice users) :
    d.rank = 3 := by
  obtain ⟨u, _, rfl⟩ := List.mem_map.mp hd
  rfl

theorem doneCalls_rank {p : Pid} {x : Proc} {next : LookupFor} {userList : List User} {d : Call}
    (hd : d ∈ x.doneCalls p userList next) : d.rank < next.rank := by
  cases next with
  | notice notice after =>
    rcases List.mem_append.mp hd with hd | hd
    · obtain ⟨user, _, rfl⟩ := List.mem_map.mp hd
      cases after <;> simp [Call.rank, LookupFor.rank]
    · cases after with
      | nobody => cases hd
      | login l =>
        rw [List.mem_singleton.mp hd]
        simp [Call.rank, LookupFor.rank]
  | loginKick l =>
    rw [List.mem_singleton.mp hd]
    simp [Call.rank, LookupFor.rank]
  | sendMsg user msg =>
    rw [fanOut_rank hd]
    simp [LookupFor.rank]

theorem Smaller.ofRank {c d : Call} (h : d.rank < c.rank) : Smaller d.sentTask c.answeredTask :=
  Prod.Lex.left _ _ h

theorem Smaller.ofTurns {c d : Call} (hrank : d.rank = c.rank) (h : d.turns < c.turns) :
    Smaller d.sentTask c.answeredTask := by
  unfold Call.sentTask Call.answeredTask
  rw [hrank]
  exact Prod.Lex.right _ (by omega)

/- The next turn of the loop over the keys found, or what follows the loop. -/
theorem loopCalls_smaller {p : Pid} {x : Proc} {next : LookupFor} {userList : List User}
    {res : List Str} {c d : Call} (hd : d ∈ x.loopCalls p next userList res)
    (hc : next.rank ≤ c.rank) (hturn : c.rank = next.rank → res.length ≤ c.turns) :
    Smaller d.sentTask c.answeredTask := by
  cases res with
  | nil => exact .ofRank (lt_of_lt_of_le (doneCalls_rank hd) hc)
  | cons key rest =>
    rw [List.mem_singleton.mp hd]
    by_cases heq : c.rank = next.rank
    · exact .ofTurns heq.symm (hturn heq)
    · exact .ofRank (lt_of_le_of_ne hc (Ne.symm heq))

theorem single_smaller {c d last : Call} (hd : d ∈ [last]) (h : last.rank < c.rank) :
    Smaller d.sentTask c.answeredTask := by
  rw [List.mem_singleton.mp hd]
  exact .ofRank h

/- A fan-out, and a write behind it. -/
theorem fanOut_smaller {c d last : Call} {notice : Notice} {users : List Str}
    (hd : d ∈ fanOut notice users ++ [last]) (hc : 3 < c.rank) (h : last.rank < c.rank) :
    Smaller d.sentTask c.answeredTask := by
  rcases List.mem_append.mp hd with hd | hd
  · exact .ofRank (by rw [fanOut_rank hd]; exact hc)
  · exact single_smaller hd h

/-- The callback of a call issues smaller tasks only. -/
theorem replyCalls_smaller {p : Pid} {x : Proc} {c d : Call} {r : Store.Reply}
    (hd : d ∈ x.replyCalls p c r) : Smaller d.sentTask c.answeredTask := by
  cases c with
  | lookupKeys userId next =>
    have hloop : ∀ res, d ∈ x.loopCalls p next [] res →
        Smaller d.sentTask (Call.lookupKeys userId next).answeredTask := by
      intro res hd
      exact loopCalls_smaller hd (Nat.le_succ _) fun heq => absurd heq (Nat.succ_ne_self _)
    cases r with
    | array res => exact hloop res hd
    | _ => exact hloop [] hd
  | lookupHash key rest userList next =>
    cases r with
    | hash res => exact loopCalls_smaller hd (Nat.le_refl _) fun _ => Nat.le_refl _
    | _ => cases hd
  | loginSet | logoutDel | addRoomSet | addRoomUserAdd | delRoomUserRem => cases hd
  | addRoomIncr user h =>
    cases user with
    | none => cases hd
    | some user =>
      cases r with
      | error err => cases hd
      | _ => exact single_smaller hd (by simp [Call.rank])
  | delRoomKeys user roomId h | addRoomUserKeys user roomId h =>
    cases user with
    | none => cases hd
    | some user =>
      cases r with
      | array res =>
        cases res with
        | nil => cases hd
        | cons k ks => exact single_smaller hd (by simp [Call.rank])
      | _ => cases hd
  | delRoomExec roomId h =>
    cases r with
    | exec rs =>
      cases rs with
      | nil => cases hd
      | cons r rs =>
        cases r with
        | array res => exact .ofRank (by rw [fanOut_rank hd]; simp [Call.rank])
        | _ => cases hd
    | _ => cases hd
  | broadcastKeys user roomId msg h =>
    cases r with
    | array res =>
      cases res with
      | nil => cases hd
      | cons k ks => exact single_smaller hd (by simp [Call.rank])
    | _ => cases hd
  | broadcastMembers user roomId msg h =>
    cases user with
    | none => cases hd
    | some user =>
      cases r with
      | array res => exact .ofRank (by rw [fanOut_rank hd]; simp [Call.rank])
      | _ => cases hd
  | roomListKeys user h =>
    cases user with
    | none => cases hd
    | some user =>
      cases r with
      | array res =>
        cases res with
        | nil => cases hd
        | cons k ks => exact single_smaller hd (by simp [Call.rank])
      | _ => cases hd
  | roomListGet key rest roomList h =>
    cases rest with
    | nil => cases hd
    | cons k ks =>
      cases r with
      | bulk res =>
        rw [List.mem_singleton.mp hd]
        exact .ofTurns rfl (Nat.lt_succ_self _)
      | _ => cases hd
  | addRoomUserMembers user roomId h =>
    cases r with
    | array res => exact fanOut_smaller hd (by simp [Call.rank]) (by simp [Call.rank])
    | _ => exact single_smaller hd (by simp [Call.rank])
  | delRoomUserMembers user roomId h =>
    cases user with
    | none => cases hd
    | some user =>
      cases r with
      | array res => exact fanOut_smaller hd (by simp [Call.rank]) (by simp [Call.rank])
      | _ => exact single_smaller hd (by simp [Call.rank])

/-! ### What a step does to the tasks -/

theorem mem_live {x : Proc} {s : Str} :
    s ∈ x.live ↔ x.ws s = some .opened ∨ x.ws s = some .closing := by
  rw [Proc.live, List.mem_filter, Table.mem_keys_iff, Proc.ws]
  cases x.conns.get s with
  | none => simp
  | some c => cases hc : c.ws <;> simp [hc]

theorem live_nodup (x : Proc) : x.live.Nodup := (AList.keys_nodup x.conns).filter _

theorem live_perm {x y : Proc} (h : ∀ s, s ∈ y.live ↔ s ∈ x.live) : y.live.Perm x.live :=
  (List.perm_ext_iff_of_nodup (live_nodup y) (live_nodup x)).mpr h

/- Only a close event ends a connection. -/
theorem mem_live_of_connStep {i : Input} {x y : Proc} {s : Str}
    (h : ConnStep i s (x.conns.get s) (y.conns.get s)) (hconnect : ∀ s now, i ≠ .connect s now)
    (hclose : i ≠ .wsClose s) (herror : i ≠ .wsError s) : s ∈ y.live ↔ s ∈ x.live := by
  rw [mem_live, mem_live, Proc.ws, Proc.ws]
  cases hx : x.conns.get s with
  | none =>
    cases hy : y.conns.get s with
    | none => rfl
    | some d =>
      rw [hx, hy] at h
      obtain ⟨now, hi, -⟩ := h
      exact absurd hi (hconnect s now)
  | some c =>
    cases hy : y.conns.get s with
    | none =>
      rw [hx, hy] at h
      cases h
    | some d =>
      rw [hx, hy] at h
      rcases h.1 with (hws | ⟨hc, hd⟩) | ⟨hi, -⟩ | ⟨hi, -⟩
      · simp [hws]
      · simp [hc, hd]
      · exact absurd hi hclose
      · exact absurd hi herror

/- The tasks of the calls and packets an input adds. -/
def newTasks (news : List Call) (outs : List Packet) : Multiset (ℕ × ℕ) :=
  (news.map Call.sentTask : Multiset (ℕ × ℕ)) + (outs.map fun _ => packetTask)

theorem Effect.tasks {p : Pid} {i : Input} {x y : Proc} {news : List Call} {outs : List Packet}
    (h : Effect p i x y news outs) {gone : List Str} (hlive : (gone ++ y.live).Perm x.live) :
    y.tasks + (gone.map fun _ => connTask : List (ℕ × ℕ)) = x.tasks + newTasks news outs := by
  have hconns : (x.live.map fun _ => connTask : Multiset (ℕ × ℕ)) =
      (gone.map fun _ => connTask : List (ℕ × ℕ)) + (y.live.map fun _ => connTask : List (ℕ × ℕ)) := by
    rw [Multiset.coe_add, ← List.map_append]
    exact Multiset.coe_eq_coe.mpr (hlive.symm.map _)
  simp only [Proc.tasks, newTasks, hconns, h.sent, h.answered, h.outbox, List.map_append,
    ← Multiset.coe_add]
  abel

/- All processes that ever did something are in `ps`. -/
def IdleOutside (ps : Finset Pid) (w : World) : Prop := ∀ q, q ∉ ps → w.procs q = Proc.initial

theorem reachable_idleOutside {w : World} (h : Reachable w) : ∃ ps, IdleOutside ps w := by
  refine Run.Reach.invariant (fun w => ∃ ps, IdleOutside ps w) ⟨∅, fun _ _ => rfl⟩ ?_ h
  rintro v e v' ⟨ps, hps⟩ - hs
  refine ⟨ps ∪ e.pids.toFinset, fun q hq => ?_⟩
  rw [Finset.mem_union, List.mem_toFinset, not_or] at hq
  rw [step_untouched v v' e q hq.2 hs]
  exact hps q hq.1

def World.tasks (ps : Finset Pid) (w : World) : Multiset (ℕ × ℕ) :=
  Work.total ps fun p => (w.procs p).tasks

section

variable {w v : World} {e : Event} {p q : Pid} {ps : Finset Pid}

/- A process whose state is not the initial one is in the set. -/
theorem IdleOutside.mem (h : IdleOutside ps w) (hp : w.procs p ≠ Proc.initial) : p ∈ ps := by
  by_contra hno
  exact hp (h p hno)

theorem IdleOutside.lowers (h : IdleOutside ps w) (hp : w.procs p ≠ Proc.initial)
    (hothers : ∀ q, q ≠ p → v.procs q = w.procs q) {a : ℕ × ℕ} {news : Multiset (ℕ × ℕ)}
    (hnews : ∀ b ∈ news, Smaller b a) (hdone : (v.procs p).tasks + {a} = (w.procs p).tasks + news) :
    IdleOutside ps v ∧ CutExpand Smaller (v.tasks ps) (w.tasks ps) := by
  refine ⟨fun q hq => ?_, ?_⟩
  · have hne : q ≠ p := by
      rintro rfl
      exact hq (h.mem hp)
    rw [hothers q hne]
    exact h q hq
  · exact Work.total_cutExpand (h.mem hp) hnews hdone fun q _ hq => by rw [hothers q hq]

theorem IdleOutside.exec {outcome : Outcome} (h : IdleOutside ps w)
    (hs : step w (.exec p outcome) = some v) :
    IdleOutside ps v ∧ CutExpand Smaller (v.tasks ps) (w.tasks ps) := by
  obtain ⟨c, r, hx⟩ := exec_cases w v p outcome hs
  have hp : w.procs p ≠ Proc.initial := by
    intro heq
    have hsent := hx.sent
    rw [heq] at hsent
    cases hsent
  have hlive : (v.procs p).live = (w.procs p).live := by
    rw [Proc.live, Proc.live, hx.conns]
    exact List.filter_congr fun s _ => by rw [Proc.ws, Proc.ws, hx.conns]
  have hsmaller : ∀ b ∈ ({c.answeredTask} : Multiset (ℕ × ℕ)), Smaller b c.sentTask := by
    intro b hb
    rw [Multiset.mem_singleton.mp hb]
    exact Prod.Lex.right _ (Nat.lt_succ_self _)
  refine h.lowers hp hx.others hsmaller ?_
  simp only [Proc.tasks, hlive, hx.sent, hx.answered, hx.outbox, List.map_cons, List.map_append,
    List.map_nil, ← Multiset.coe_add, ← Multiset.cons_coe, ← Multiset.singleton_add,
    Multiset.coe_nil]
  abel

theorem newTasks_smaller {news : List Call} {a : ℕ × ℕ} (ha : 0 < a.1)
    (hnews : ∀ d ∈ news, Smaller d.sentTask a) (outs : List Packet) :
    ∀ b ∈ newTasks news outs, Smaller b a := by
  intro b hb
  rcases Multiset.mem_add.mp hb with hb | hb
  · obtain ⟨d, hd, rfl⟩ := List.mem_map.mp (Multiset.mem_coe.mp hb)
    exact hnews d hd
  · obtain ⟨packet, -, rfl⟩ := List.mem_map.mp (Multiset.mem_coe.mp hb)
    exact Prod.Lex.left _ _ ha

theorem Handled.tasks {i : Input} {x : Proc} {gone : List Str} (h : Handled w v e p i x) (hw : WF w)
    (hlive : (gone ++ (v.procs p).live).Perm x.live) :
    ∃ outs, (v.procs p).tasks + (gone.map fun _ => connTask : List (ℕ × ℕ)) =
      x.tasks + newTasks (x.issued p i) outs := by
  obtain ⟨outs, heff⟩ := h.effect_issued hw
  exact ⟨outs, heff.tasks hlive⟩

theorem Handled.live_perm {i : Input} {x : Proc} (h : Handled w v e p i x) (hw : WF w)
    (hconnect : ∀ s now, i ≠ .connect s now) (hclose : ∀ s, i ≠ .wsClose s)
    (herror : ∀ s, i ≠ .wsError s) : ([] ++ (v.procs p).live).Perm x.live := by
  obtain ⟨outs, heff⟩ := h.effect_issued hw
  exact NodeServer.live_perm fun s =>
    mem_live_of_connStep (heff.conns s) hconnect (hclose s) (herror s)

theorem IdleOutside.reply (h : IdleOutside ps w) (hw : WF w) (hs : step w (.reply p) = some v) :
    IdleOutside ps v ∧ CutExpand Smaller (v.tasks ps) (w.tasks ps) := by
  obtain ⟨c, r, rest, hans, hv⟩ := step_reply hs
  have hin : inputOf w (.reply p) = some (p, .reply c r) := by
    simp only [inputOf, hans]
  have hp : w.procs p ≠ Proc.initial := by
    intro heq
    rw [heq] at hans
    cases hans
  have hothers : ∀ q, q ≠ p → v.procs q = w.procs q := by
    intro q hq
    rw [hv]
    exact setProc_ne w p q _ hq
  have hh := handled_takeOff hs hin
  have hx : (w.procs p).tasks = ((takeOff w (.reply p)).procs p).tasks + {c.answeredTask} := by
    rw [takeOff, setProc_self]
    simp only [Proc.tasks, hans, List.tail_cons, List.map_cons, ← Multiset.cons_coe,
      ← Multiset.singleton_add]
    show _ = _ + _ + _ + _ + _
    abel
  obtain ⟨outs, htasks⟩ := hh.tasks hw (hh.live_perm hw (fun _ _ => Input.noConfusion)
    (fun _ => Input.noConfusion) fun _ => Input.noConfusion)
  have hsmaller : ∀ d ∈ ((takeOff w (.reply p)).procs p).issued p (.reply c r),
      Smaller d.sentTask c.answeredTask := fun d hd => replyCalls_smaller hd
  refine h.lowers hp hothers (newTasks_smaller c.rank_pos hsmaller outs) ?_
  rw [List.map_nil, Multiset.coe_nil, add_zero] at htasks
  rw [htasks, hx]
  exact add_right_comm _ _ _

/- The calls of `disconnect`. -/
theorem leaveCalls_smaller {x : Proc} {s : Str} {d : Call} (hd : d ∈ x.leaveCalls s) :
    Smaller d.sentTask connTask := by
  unfold Proc.leaveCalls at hd
  split at hd
  · cases hd
  · split at hd
    · rw [List.mem_singleton.mp hd]
      exact Prod.Lex.left _ _ (by simp [Call.rank])
    · rcases List.mem_cons.mp hd with rfl | hd
      · exact Prod.Lex.left _ _ (by simp [Call.rank])
      · rw [List.mem_singleton.mp hd]
        exact Prod.Lex.left _ _ (by simp [Call.rank])

theorem wsClose_ended (p : Pid) (x : Proc) (s : Str) (hk : x.Keyed) :
    s ∉ (react p (.wsClose s) x).live := by
  have hq := rejectConn_quiet ((x.setWs s .closed).disconnect s) s
    (by rw [disconnect_userList (x.setWs s .closed) s s hk, if_pos rfl])
  have hstep := hq.ctx s
  rw [(disconnect_rest (x.setWs s .closed) s).2.2] at hstep
  simp only [Proc.setWs, Proc.setConn, Table.get_modify, if_true] at hstep
  have hlive : ∀ a, a ≠ .closed →
      (((x.setWs s .closed).disconnect s).rejectConn s).ws s ≠ some a := by
    intro a ha ho
    obtain ⟨d, hd, hdo⟩ := Option.map_eq_some_iff.mp ho
    simp only [Proc.setWs, Proc.setConn] at hd
    rw [hd] at hstep
    cases hc : x.conns.get s with
    | none =>
      rw [hc] at hstep
      exact hstep
    | some c =>
      rw [hc] at hstep
      have hle : Conn.Le { c with ws := .closed } d := hstep
      rcases hle.ws with hws | ⟨hws, _⟩
      · exact ha (hdo.symm.trans hws)
      · cases hws
  rw [mem_live, not_or]
  exact ⟨hlive .opened WsState.noConfusion, hlive .closing WsState.noConfusion⟩

theorem IdleOutside.wsClose {s : Str} (h : IdleOutside ps w) (hw : WF w)
    (hs : step w (.wsClose p s) = some v) :
    IdleOutside ps v ∧ CutExpand Smaller (v.tasks ps) (w.tasks ps) := by
  obtain ⟨q, i, x, hh⟩ := step_handled hs rfl
  obtain ⟨rfl, rfl⟩ := inputOf_wsClose hh.input
  have hin := hh.input
  have hclosing : (w.procs p).ws s = some .closing := (inputOf_arrives w _ p _ hin).2
  have hp : w.procs p ≠ Proc.initial := by
    intro heq
    rw [heq] at hclosing
    cases hclosing
  have hv : v = w.setProc p (react p (.wsClose s) (w.procs p)) := by
    have hs : (inputOf w (.wsClose p s)).map _ = some v := hs
    rw [hin] at hs
    exact (Option.some.inj hs).symm
  have hothers : ∀ q, q ≠ p → v.procs q = w.procs q := by
    intro q hq
    rw [hv]
    exact setProc_ne w p q _ hq
  have hh : Handled w v (.wsClose p s) p (.wsClose s) (w.procs p) := handled_takeOff hs hin
  obtain ⟨news, outs', heff⟩ := hh.effect hw
  have hended : s ∉ (v.procs p).live := by
    rw [hh.after]
    exact wsClose_ended p _ s (hw.keyed p)
  have hlive : ([s] ++ (v.procs p).live).Perm (w.procs p).live := by
    refine (List.perm_ext_iff_of_nodup (List.nodup_cons.mpr ⟨hended, live_nodup _⟩)
      (live_nodup _)).mpr fun t => ?_
    rw [List.mem_cons]
    by_cases ht : t = s
    · subst ht
      exact iff_of_true (Or.inl rfl) (mem_live.mpr (Or.inr hclosing))
    · have hother := mem_live_of_connStep (heff.conns t) (fun _ _ => Input.noConfusion)
        (fun heq => ht (Input.wsClose.inj heq).symm) Input.noConfusion
      exact (or_iff_right ht).trans hother
  obtain ⟨outs, htasks⟩ := hh.tasks hw hlive
  have hsmaller : ∀ d ∈ (w.procs p).issued p (.wsClose s), Smaller d.sentTask connTask :=
    fun d hd => leaveCalls_smaller hd
  exact h.lowers hp hothers (newTasks_smaller (by simp [connTask]) hsmaller outs) htasks

/- Handling a packet issues nothing, and a process that was never used ignores it. -/
theorem IdleOutside.packet (h : IdleOutside ps w) (p : Pid) (packet : Packet) :
    IdleOutside ps (w.setProc p (react p (.packet packet) (w.procs p))) ∧
      (w.setProc p (react p (.packet packet) (w.procs p))).tasks ps = w.tasks ps := by
  have hemits := Emits.onPacket (w.procs p) packet
  refine ⟨fun q hq => ?_, Work.total_congr fun q _ => ?_⟩
  · by_cases hp : q = p
    · subst hp
      rw [setProc_self, h q hq]
      rfl
    · rw [setProc_ne w p q _ hp]
      exact h q hq
  · by_cases hp : q = p
    · subst hp
      have hlive : ((w.procs q).onPacket packet).live.Perm (w.procs q).live :=
        live_perm fun s => mem_live_of_connStep (.ofLe (.packet packet) s (hemits.ctx s))
          (fun _ _ => Input.noConfusion) Input.noConfusion Input.noConfusion
      have hconns := Multiset.coe_eq_coe.mpr (hlive.map fun _ => connTask)
      rw [setProc_self]
      show ((w.procs q).onPacket packet).tasks = _
      rw [Proc.tasks, hconns, hemits.sent, hemits.answered, hemits.outbox, List.append_nil]
      rfl
    · rw [setProc_ne w p q _ hp]

theorem IdleOutside.deliver {n : ℕ} (h : IdleOutside ps w)
    (hs : step w (.deliver q n p) = some v) :
    IdleOutside ps v ∧ CutExpand Smaller (v.tasks ps) (w.tasks ps) := by
  obtain ⟨packet, hget, hurl, rfl⟩ := step_deliver hs
  obtain ⟨hn, hgetn⟩ := List.getElem?_eq_some_iff.mp hget
  have hq : w.procs q ≠ Proc.initial := by
    intro heq
    rw [heq] at hget
    cases hget
  -- the packet is taken off, and then handled
  have htaken : IdleOutside ps (w.setProc q { w.procs q with
        outbox := (w.procs q).outbox.eraseIdx n }) ∧ CutExpand Smaller ((w.setProc q { w.procs q with
        outbox := (w.procs q).outbox.eraseIdx n }).tasks ps) (w.tasks ps) := by
    have hnone : ∀ b ∈ (0 : Multiset (ℕ × ℕ)), Smaller b packetTask := fun b hb => by cases hb
    refine h.lowers hq (fun p hp => setProc_ne w q p _ hp) hnone ?_
    have hbox : ((w.procs q).outbox.map fun _ => packetTask : Multiset (ℕ × ℕ)) =
        {packetTask} + (((w.procs q).outbox.eraseIdx n).map fun _ => packetTask : List (ℕ × ℕ)) :=
      (Multiset.coe_eq_coe.mpr
        ((List.getElem_cons_eraseIdx_perm hn).map fun _ => packetTask)).symm
    have hlive : Proc.live { w.procs q with outbox := (w.procs q).outbox.eraseIdx n } =
        (w.procs q).live := rfl
    rw [setProc_self, add_zero, Proc.tasks, Proc.tasks, hbox, hlive]
    abel
  obtain ⟨hidle, htasks⟩ := htaken.1.packet p packet
  rw [← htasks] at htaken
  exact ⟨hidle, htaken.2⟩

/-- Every step the clients have no part in does one task, and adds smaller ones. -/
theorem IdleOutside.step (h : IdleOutside ps w) (hw : WF w) (he : e.unprompted = true)
    (hs : step w e = some v) : IdleOutside ps v ∧ CutExpand Smaller (v.tasks ps) (w.tasks ps) := by
  cases e with
  | exec p outcome => exact h.exec hs
  | reply p => exact h.reply hw hs
  | deliver q n p => exact h.deliver hs
  | wsClose p s => exact h.wsClose hw hs
  | _ => cases he

end

/-! ### Nothing waits for a step that cannot be made -/

/- Every forwarded notice is addressed to a process. -/
def Addressed (w : World) : Prop := ∀ p, ∀ packet ∈ (w.procs p).outbox, ∃ q, packet.url = appInfo q

section

variable {w v : World} {e : Event}

theorem Addressed.step (ha : Addressed w) (hw : WF w) (hs : NodeServer.step w e = some v) :
    Addressed v := by
  rcases step_cases w v e hs with ⟨p, c, r, h⟩ | ⟨p, i, x, h⟩
  · intro q packet hp
    by_cases hq : q = p
    · subst hq
      rw [h.outbox] at hp
      exact ha q packet hp
    · rw [h.others q hq] at hp
      exact ha q packet hp
  · intro q packet hp
    by_cases hq : q = p
    · subst hq
      obtain ⟨news, outs, heff⟩ := h.effect hw
      rw [heff.outbox] at hp
      rcases List.mem_append.mp hp with hp | hp
      · exact ha q packet (h.outbox packet hp)
      · obtain ⟨notice, after, userList, user, hres, hu, -, rfl⟩ := heff.forwards packet hp
        obtain ⟨q', huser, -⟩ := (h.resolved hw _ userList hres).2 user hu
        exact ⟨q', huser.2⟩
    · obtain ⟨outbox, hv, hsub⟩ := h.others q hq
      rw [hv] at hp
      exact ha q packet (hsub packet hp)

theorem addressed_reachable (h : Reachable w) : Addressed w := by
  have hboth : WF w ∧ Addressed w := by
    refine Run.Reach.invariant (fun w => WF w ∧ Addressed w) ⟨WF.initial, ?_⟩ ?_ h
    · intro p packet hp
      cases hp
    · rintro v e v' ⟨hw, ha⟩ - hs
      exact ⟨hw.step hs, ha.step hw hs⟩
  exact hboth.2

/-- Where nothing can happen without the clients, nothing is pending. -/
theorem quiescent_iff (ha : Addressed w) :
    (∀ e : Event, e.unprompted = true → step w e = none) ↔ Quiescent w := by
  constructor
  · intro hstuck p
    refine ⟨?_, ?_, ?_, ?_⟩
    · cases hsent : (w.procs p).sent with
      | nil => rfl
      | cons c rest =>
        obtain ⟨order, v, hv⟩ := exec_enabled hsent
        rw [hstuck _ rfl] at hv
        cases hv
    · cases hans : (w.procs p).answered with
      | nil => rfl
      | cons cr rest =>
        obtain ⟨v, hv⟩ := reply_enabled hans
        rw [hstuck _ rfl] at hv
        cases hv
    · cases hout : (w.procs p).outbox with
      | nil => rfl
      | cons packet rest =>
        obtain ⟨q, hurl⟩ := ha p packet (by rw [hout]; exact List.mem_cons_self ..)
        have hno := hstuck (.deliver p 0 q) rfl
        simp [step, inputOf, hout, hurl] at hno
    · intro s hclosing
      have hno := hstuck (.wsClose p s) rfl
      simp [step, inputOf, hclosing] at hno
  · intro hq e he
    cases e with
    | exec p outcome => cases outcome <;> simp [step, execStep, (hq p).1]
    | reply p => simp [step, inputOf, (hq p).2.1]
    | deliver q n p => simp [step, inputOf, (hq q).2.2.1]
    | wsClose p s => simp [step, inputOf, (hq p).2.2.2 s]
    | _ => cases he

end

/-- Left alone the servers stop after finitely many steps, whatever the order of the
steps, the listings and the errors of Redis; and they stop only when nothing is
pending. -/
structure ComesToRest (w : World) : Prop where
  ends : ∀ ws : ℕ → World, ws 0 = w →
    ∃ n, ∀ e : Event, e.unprompted = true → step (ws n) e ≠ some (ws (n + 1))
  rest : ∀ v, Run.Reach step (fun _ e => e.unprompted = true) w v →
    ((∀ e : Event, e.unprompted = true → step v e = none) ↔ Quiescent v)

theorem reachable_ends {w : World} (h : Reachable w) (ws : ℕ → World) (h0 : ws 0 = w) :
    ∃ n, ∀ e : Event, e.unprompted = true → step (ws n) e ≠ some (ws (n + 1)) := by
  obtain ⟨ps, hps⟩ := reachable_idleOutside h
  refine Run.no_infinite_run (fun _ (e : Event) => e.unprompted = true) (fun v => WF v ∧ IdleOutside ps v)
    smaller_wf.cutExpand (World.tasks ps) ?_ ws ?_
  · rintro v e v' ⟨hw, hidle⟩ he hs
    obtain ⟨hidle', hlower⟩ := hidle.step hw he hs
    exact ⟨⟨hw.step hs, hidle'⟩, hlower⟩
  · rw [h0]
    exact ⟨WF.initial.reach h, hps⟩

theorem reachable_rest {w v : World} (h : Reachable w)
    (hv : Run.Reach step (fun _ e => e.unprompted = true) w v) :
    (∀ e : Event, e.unprompted = true → step v e = none) ↔ Quiescent v := by
  refine quiescent_iff (addressed_reachable ?_)
  exact h.trans (hv.mono fun _ _ _ => trivial)

end NodeServer

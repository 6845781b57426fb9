import NodeServer.Proof.Served
import NodeServer.Proof.Numbering

/-! # A notice from its sender to its sessions

`NoticeSender.send` is started on one process, with nothing else in flight, and
followed through its lookup, its loop and the packets it forwards until nothing is
pending. The session it is for may be one of the same process or of another. -/

namespace NodeServer

open DBModelKeys

/-! ### A process that goes on alone -/

/- Process `p` goes on from `x` with nothing else in flight, and everything that
follows is done in `v`. -/
structure Ends (w : World) (p : Pid) (x : Proc) (v : World) : Prop where
  run : Run.Reach step (fun _ e => e.internal = true) (w.calm.setProc p x) v
  done : ∀ r, (v.procs r).calls = [] ∧ (v.procs r).outbox = []

/- `NoticeSender.send(u, notice)` on process `p`, from its call to its last effect. -/
def Sent (w : World) (p : Pid) (u : Str) (notice : Notice) (v : World) : Prop :=
  Ends w p ((w.calm.procs p).senderSend u notice) v

/- Nothing is in flight from the process. -/
def Proc.Still (x : Proc) : Prop := x.sent = [] ∧ x.answered = [] ∧ x.outbox = []

section

variable {w v : World} {p : Pid} {x : Proc} {c : Call}

theorem calm_oneCall (w : World) (p : Pid) (hx : x.Still) (c : Call) :
    OneCall (w.calm.setProc p (x.issue c)) p c := by
  obtain ⟨hsent, hans, hout⟩ := hx
  refine ⟨?_, ?_, ?_, ?_⟩
  · rw [setProc_self, Proc.issue, hsent]
    rfl
  · rw [setProc_self]
    exact hans
  · intro q
    by_cases hq : q = p
    · rw [hq, setProc_self]
      exact hout
    · rw [setProc_ne _ p q _ hq]
      rfl
  · intro q hq
    rw [setProc_ne _ p q _ hq]
    rfl

/-- The one call is served, and its process goes on. -/
theorem Ends.called (hx : x.Still) (h : Ends w p (x.issue c) v) :
    ∃ order r, (c.txn.run w.db).2.inOrder order = some r ∧
      Run.Reach step (fun _ e => e.internal = true)
        { w.calm.setProc p (x.onReply p c r) with db := (c.txn.run w.db).1 } v := by
  obtain ⟨e, u, r, he, hexec, -, hfrom⟩ := (calm_oneCall w p hx c).calledBack h.run (h.done p).1
  obtain ⟨order, -, -, hr⟩ := hexec.internal_done he
  refine ⟨order, r, hr, ?_⟩
  have hproc : ({ (w.calm.setProc p (x.issue c)).procs p with sent := [] } : Proc) = x := by
    rw [setProc_self, Proc.issue, ← hx.1]
  unfold World.calledBack at hfrom
  rw [hproc, setProc_setProc] at hfrom
  exact hfrom

/-- Reading leaves Redis as it is. -/
theorem Ends.read (hx : x.Still) (hread : (c.txn.run w.db).1 = w.db)
    (h : Ends w p (x.issue c) v) :
    ∃ order r, (c.txn.run w.db).2.inOrder order = some r ∧ Ends w p (x.onReply p c r) v := by
  obtain ⟨order, r, hr, hrun⟩ := h.called hx
  rw [hread] at hrun
  exact ⟨order, r, hr, hrun, h.done⟩

theorem Emits.still {y : Proc} (h : Emits [] x y) (hx : x.Still) : y.Still :=
  ⟨by rw [h.sent, hx.1]; rfl, h.answered.trans hx.2.1, h.outbox.trans hx.2.2⟩

/-- The last call has been served. -/
theorem Ends.last (hx : x.Still) (hlast : ∀ r, (x.onReply p c r).Still)
    (h : Ends w p (x.issue c) v) : ∃ r, v.procs p = x.onReply p c r := by
  obtain ⟨order, r, -, hrun⟩ := h.called hx
  obtain ⟨hsent, hans, hout⟩ := hlast r
  have hidle : ∀ q, ((w.calm.setProc p (x.onReply p c r)).procs q).calls = [] ∧
      ((w.calm.setProc p (x.onReply p c r)).procs q).outbox = [] := by
    intro q
    by_cases hq : q = p
    · rw [hq, setProc_self, Proc.calls, hsent, hans]
      exact ⟨rfl, hout⟩
    · rw [setProc_ne _ p q _ hq]
      exact ⟨rfl, rfl⟩
  have hv : v = { w.calm.setProc p (x.onReply p c r) with db := (c.txn.run w.db).1 } :=
    idle_reach (fun q => (hidle q).1) (fun q => (hidle q).2) hrun
  rw [hv]
  exact ⟨r, setProc_self _ p _⟩

end

/-! ### Its lookup -/

/- The user a lookup on `p` has made of the record under `k`: an entry of `p`, or a
new object that stands for a session of which `p` has none. -/
structure FoundAt (w : World) (p : Pid) (k : Str) (user : User) : Prop where
  socket : user.socketId = w.socketOf k
  owner : ∃ o, UserOf w.own o user
  entry : (w.procs p).userList.get user.socketId = some user ∨
    (w.procs p).userList.get user.socketId = none ∧ user.websocket = false ∧
      (w.procs p).nextRef ≤ user.ref

/- What a lookup of `u` on `p` resolves with: one user for each record it lists. -/
structure Finds (w : World) (p : Pid) (u : Str) (y : Proc) (users : List User) : Prop where
  same : ∃ n, y = { w.calm.procs p with nextRef := n }
  read : ∃ order, order.Perm (w.recordsOf u) ∧ List.Forall₂ (FoundAt w p) order users

section

variable {w v : World} {p : Pid} {u : Str}

theorem FoundAt.read (hw : WF w) {k : Str} {rec : User} {o : Pid} (hof : UserOf w.own o rec)
    (hk : w.db.get k = some (.hash rec.record)) {n : ℕ} (hn : (w.procs p).nextRef ≤ n) :
    FoundAt w p k (({ w.calm.procs p with nextRef := n } : Proc).getUserWithRedis rec.record) := by
  have hsocket : w.socketOf k = rec.socketId := by
    simp only [World.socketOf, hk, fieldOf_record_socketId]
  rw [getUserWithRedis_record]
  have hlist : ({ w.calm.procs p with nextRef := n } : Proc).userList = (w.procs p).userList := rfl
  rw [hlist]
  cases hu : (w.procs p).userList.get rec.socketId with
  | some user =>
    obtain ⟨hs, hlocal⟩ := hw.users p _ user hu
    exact ⟨hs.trans hsocket.symm, ⟨p, hlocal.1⟩, Or.inl (hs.symm ▸ hu)⟩
  | none => exact ⟨hsocket.symm, ⟨o, hof⟩, Or.inr ⟨hu, rfl, hn⟩⟩

/-- The loop over the keys reads one record after the other. -/
theorem Ends.loop (hw : WF w) {next : LookupFor} (keys : List Str) (n : ℕ) (found : List User)
    (hn : (w.procs p).nextRef ≤ n)
    (hkeys : ∀ k ∈ keys, ∃ rec o, UserOf w.own o rec ∧ w.db.get k = some (.hash rec.record))
    (h : Ends w p (({ w.calm.procs p with nextRef := n } : Proc).lookupLoop p next keys found) v) :
    ∃ n' news, List.Forall₂ (FoundAt w p) keys news ∧
      Ends w p (({ w.calm.procs p with nextRef := n' } : Proc).lookupDone p next (found ++ news))
        v := by
  induction keys generalizing n found with
  | nil =>
    refine ⟨n, [], .nil, ?_⟩
    rw [List.append_nil]
    exact h
  | cons key rest ih =>
    obtain ⟨rec, o, hof, hk⟩ := hkeys key (List.mem_cons_self ..)
    obtain ⟨order, r, hr, hnext⟩ := Ends.read (c := .lookupHash key rest found next)
      ⟨rfl, rfl, rfl⟩ rfl h
    have hreply : r = .hash rec.record := by
      simp only [Call.txn, Store.Txn.run, Store.Cmd.run, Store.hgetall, hk] at hr
      exact (Option.some.inj hr).symm
    subst hreply
    obtain ⟨n', news, hnews, hdone⟩ := ih (n + 1) _ (Nat.le_succ_of_le hn)
      (fun k hk => hkeys k (List.mem_cons_of_mem _ hk)) hnext
    refine ⟨n', _ :: news, .cons (FoundAt.read hw hof hk hn) hnews, ?_⟩
    rw [List.append_assoc] at hdone
    exact hdone

/-- The whole lookup. -/
theorem Ends.lookup (hw : WF w) {next : LookupFor}
    (h : Ends w p ((w.calm.procs p).getUserWithId u next) v) :
    ∃ y users, Finds w p u y users ∧ Ends w p (y.lookupDone p next users) v := by
  obtain ⟨order, r, hr, hnext⟩ := Ends.read (c := .lookupKeys u next) ⟨rfl, rfl, rfl⟩ rfl h
  obtain ⟨rfl, hnodup, hmem⟩ := Store.keys_inOrder order _ w.db r hr
  have hperm : order.Perm (w.recordsOf u) := by
    refine (List.perm_ext_iff_of_nodup hnodup ((AList.keys_nodup w.db).filter _)).mpr fun k => ?_
    exact (hmem k).trans ((and_congr_left' Option.ne_none_iff_exists'.symm).trans
      mem_recordsOf.symm)
  obtain ⟨n, users, husers, hdone⟩ := Ends.loop hw order (w.procs p).nextRef [] (Nat.le_refl _)
    (by
      intro k hk
      obtain ⟨hget, hmatch⟩ := mem_recordsOf.mp (hperm.subset hk)
      obtain ⟨value, hvalue⟩ := Option.ne_none_iff_exists'.mp hget
      obtain ⟨rec, o, hof, -, rfl⟩ := entry_online w.own w.db hw.db
        (userIdPattern_family u k hmatch) hvalue
      exact ⟨rec, o, hof, hvalue⟩) hnext
  exact ⟨_, users, ⟨⟨n, rfl⟩, order, hperm, husers⟩, hdone⟩

end

/-! ### A session that is listed once -/

/- Among the records a lookup of `u` lists there is one for the connection `s`. -/
def ListedOnce (w : World) (u s : Str) : Prop :=
  (w.recordsOf u).countP (fun k => w.socketOf k = s) = 1

instance (w : World) (u s : Str) : Decidable (ListedOnce w u s) :=
  inferInstanceAs (Decidable (_ = _))

theorem forall₂_countP {α β : Type} {R : α → β → Prop} {as : List α} {bs : List β}
    (h : List.Forall₂ R as bs) {f : α → Bool} {g : β → Bool} (hfg : ∀ a b, R a b → g b = f a) :
    bs.countP g = as.countP f := by
  induction h with
  | nil => rfl
  | cons hr _ ih => simp only [List.countP_cons, ih, hfg _ _ hr]

theorem split_of_countP_one {α : Type} {f : α → Bool} {l : List α} (h : l.countP f = 1) :
    ∃ before a after, l = before ++ a :: after ∧ f a = true ∧
      ∀ b ∈ before ++ after, f b = false := by
  rw [List.countP_eq_length_filter, List.length_eq_one_iff] at h
  obtain ⟨a, ha⟩ := h
  obtain ⟨before, after, rfl, hbefore, hfa, hafter⟩ := List.filter_eq_cons_iff.mp ha
  refine ⟨before, a, after, rfl, hfa, ?_⟩
  intro b hb
  rcases List.mem_append.mp hb with hb | hb
  · exact Bool.eq_false_iff.mpr (hbefore b hb)
  · exact Bool.eq_false_iff.mpr (List.filter_eq_nil_iff.mp hafter b hb)

section

variable {w : World} {p : Pid} {u s : Str} {y : Proc} {users : List User}

theorem Finds.countP (h : Finds w p u y users) (t : Str) :
    users.countP (fun user => user.socketId = t) =
      (w.recordsOf u).countP fun k => w.socketOf k = t := by
  obtain ⟨order, hperm, hread⟩ := h.read
  rw [← hperm.countP_eq]
  refine forall₂_countP hread ?_
  intro k user hk
  rw [hk.socket]

theorem Finds.mem (h : Finds w p u y users) {user : User} (hu : user ∈ users) :
    ∃ k ∈ w.recordsOf u, FoundAt w p k user := by
  obtain ⟨order, hperm, hread⟩ := h.read
  obtain ⟨k, hk, hfound⟩ := forall₂_mem_right hread user hu
  exact ⟨k, hperm.subset hk, hfound⟩

theorem Finds.split (h : Finds w p u y users) (hlisted : ListedOnce w u s) :
    ∃ before user after, users = before ++ user :: after ∧ user.socketId = s ∧
      ∀ other ∈ before ++ after, other.socketId ≠ s := by
  have hone := (h.countP s).trans hlisted
  obtain ⟨before, user, after, hsplit, hs, hothers⟩ := split_of_countP_one hone
  exact ⟨before, user, after, hsplit, of_decide_eq_true hs,
    fun other ho => of_decide_eq_false (hothers other ho)⟩

/- No two entries of a process are one object, and new objects get new identities. -/
theorem reachable_refs (hreach : Reachable w) (p : Pid) {t : Str} {user : User}
    (hu : (w.procs p).userList.get t = some user) : user.ref < (w.procs p).nextRef ∧
      ∀ t' other, (w.procs p).userList.get t' = some other → other.ref = user.ref →
        other = user := by
  obtain ⟨tr, hpath, -⟩ := hreach.path
  obtain ⟨-, hnum⟩ := run_numbered hpath p
  have hseen : ∀ t other, (w.procs p).userList.get t = some other →
      (w.procs p).Seen (noticesOn p tr) other := fun t other ho => Or.inl (Or.inl ⟨t, ho⟩)
  exact ⟨hnum.bound user (hseen t user hu), fun t' other ho href =>
    hnum.same other user (hseen t' other ho) (hseen t user hu) href⟩

end

/-! ### Its loop -/

/- What a send has come to on the session `s` of process `p`. -/
structure Told (x y : Proc) (s : Str) (user : User) (frame : Frame) (ws : WsState) : Prop where
  frames : y.frames s = x.frames s ++ [frame]
  counted : y.noticeId user.ref = x.noticeId user.ref + 1
  ws : y.ws s = some ws

section

variable {s : Str} {user : User}

/-- The router writes a forwarded notice to its session. -/
theorem onPacket_told (x : Proc) (packet : Packet) (hu : x.userList.get packet.socketId = some user)
    (hs : user.socketId = packet.socketId) (hopen : x.ws packet.socketId = some .opened) :
    Told x (x.onPacket packet) packet.socketId user
      (.notice (x.noticeId user.ref) packet.notice (some packet.socketId))
      (if packet.notice.isKick then .closing else .opened) := by
  obtain ⟨hframes, hws⟩ := onPacket_open x packet user hu hs hopen
  refine ⟨hframes, ?_, hws⟩
  rw [onPacket_noticeId x packet user hu, bumpNotice_self]

/-- And leaves the other sessions alone. -/
theorem onPacket_others (x : Proc) (packet : Packet)
    (h : ∀ other, x.userList.get packet.socketId = some other →
      other.socketId ≠ s ∧ other.ref ≠ user.ref) :
    (x.onPacket packet).conns.get s = x.conns.get s ∧
      (x.onPacket packet).noticeId user.ref = x.noticeId user.ref := by
  cases hu : x.userList.get packet.socketId with
  | none =>
    rw [onPacket_unknown x packet hu]
    exact ⟨rfl, rfl⟩
  | some other =>
    obtain ⟨hs, href⟩ := h other hu
    have hs' : s ≠ other.socketId := fun heq => hs heq.symm
    constructor
    · have huser : x.getUserWithSocket packet.socketId = some other := hu
      simp only [Proc.onPacket, huser, Proc.wsSend]
      by_cases hopen : (x.bumpNotice other).ws other.socketId = some .opened
      · simp only [hopen, if_true]
        cases packet.notice.isKick with
        | true => simp [Proc.wsClose, Proc.setConn, Table.get_modify, hs', Proc.bumpNotice]
        | false => simp [Proc.setConn, Table.get_modify, hs', Proc.bumpNotice]
      · simp only [hopen, if_false]
        rfl
    · rw [onPacket_noticeId x packet other hu]
      exact bumpNotice_ne x other fun heq => href heq.symm

end

/-! ### What is left to do after the loop -/

/- Process `p` has the records of `gone` to delete and packets for other processes
on their way, and nothing else is in flight. -/
structure Trailing (w : World) (p : Pid) (gone : List User) (v : World) : Prop where
  calls : ∀ c ∈ (v.procs p).calls, ∃ user ∈ gone, c = .logoutDel user
  packets : ∀ packet ∈ (v.procs p).outbox, ∃ q, q ≠ p ∧ packet.url = appInfo q
  others : ∀ q, q ≠ p → (v.procs q).calls = [] ∧ (v.procs q).outbox = []
  db : ∀ k, (∀ user ∈ gone, user.key ≠ k) → v.db.get k = w.db.get k

/- A record is deleted, or a packet arrives. -/
inductive TrailStep (p : Pid) (v z : World) : Prop
  | call (tables : ∀ q, (z.procs q).conns = (v.procs q).conns ∧
      (z.procs q).userList = (v.procs q).userList ∧ (z.procs q).noticeId = (v.procs q).noticeId ∧
      (z.procs q).outbox = (v.procs q).outbox) : TrailStep p v z
  | packet (q : Pid) (packet : Packet) (other : q ≠ p) (mem : packet ∈ (v.procs p).outbox)
      (url : packet.url = appInfo q) (passed : Passed v z p q packet) : TrailStep p v z

section

variable {w v z : World} {p : Pid} {gone : List User}

theorem Trailing.executed {e : Event} {q : Pid} {c : Call} {r : Store.Reply}
    (ht : Trailing w p gone v) (h : Executed v z e q c r) (he : e.internal = true)
    (hs : step v e = some z) : Trailing w p gone z ∧ TrailStep p v z := by
  have hq : q = p := by
    by_contra hne
    have hmem := h.mem_calls
    rw [(ht.others q hne).1] at hmem
    cases hmem
  subst hq
  obtain ⟨user, hu, rfl⟩ := ht.calls c h.mem_calls
  obtain ⟨order, rfl, hdb, -⟩ := h.internal_done he
  refine ⟨⟨?_, ?_, ?_, ?_⟩, .call ?_⟩
  · rw [h.calls q]
    exact ht.calls
  · rw [h.outbox]
    exact ht.packets
  · intro q' hq'
    rw [h.others q' hq']
    exact ht.others q' hq'
  · intro k hk
    rw [hdb, ← ht.db k hk]
    refine Store.run_frame (.del user.key) v.db k ?_
    simp only [Store.Cmd.writes, List.mem_singleton]
    exact fun heq => hk user hu heq.symm
  · intro q'
    by_cases hq' : q' = q
    · subst hq'
      exact ⟨h.conns, h.userList, (execStep_counters hs q').1, h.outbox⟩
    · rw [h.others q' hq']
      exact ⟨rfl, rfl, rfl, rfl⟩

theorem Trailing.replied {q : Pid} (ht : Trailing w p gone v) (hs : step v (.reply q) = some z) :
    Trailing w p gone z ∧ TrailStep p v z := by
  obtain ⟨c, r, rest, hans, rfl⟩ := step_reply hs
  have hmem : c ∈ (v.procs q).calls := by
    rw [Proc.calls, hans]
    exact List.mem_cons_self ..
  have hq : q = p := by
    by_contra hne
    rw [(ht.others q hne).1] at hmem
    cases hmem
  subst hq
  obtain ⟨user, hu, rfl⟩ := ht.calls c hmem
  -- the callback of the deletion does nothing
  have hself : ∀ x : Proc, (v.setProc q (react q (.reply (.logoutDel user) r) x)).procs q = x :=
    fun x => setProc_self v q x
  refine ⟨⟨?_, ?_, ?_, ht.db⟩, .call ?_⟩
  · intro c hc
    rw [hself] at hc
    refine ht.calls c ?_
    rw [Proc.calls, hans]
    exact List.mem_cons_of_mem _ hc
  · intro packet hp
    rw [hself] at hp
    exact ht.packets packet hp
  · intro q' hq'
    rw [setProc_ne v q q' _ hq']
    exact ht.others q' hq'
  · intro q'
    by_cases hq' : q' = q
    · rw [hq', hself]
      exact ⟨rfl, rfl, rfl, rfl⟩
    · rw [setProc_ne v q q' _ hq']
      exact ⟨rfl, rfl, rfl, rfl⟩

theorem Trailing.delivered {q r : Pid} {n : ℕ} (ht : Trailing w p gone v)
    (hs : step v (.deliver q n r) = some z) : Trailing w p gone z ∧ TrailStep p v z := by
  obtain ⟨packet, hp, hurl, hpassed⟩ := step_passed hs
  have hq : q = p := by
    by_contra hne
    rw [(ht.others q hne).2] at hp
    cases hp
  subst hq
  obtain ⟨r', hr', hurl'⟩ := ht.packets packet hp
  have hrr : r = r' := appInfo_injective (hurl.symm.trans hurl')
  subst hrr
  have hpass := hpassed hr'
  obtain ⟨outbox, hsource, hperm⟩ := hpass.source
  refine ⟨⟨?_, ?_, ?_, ?_⟩, .packet r packet hr' hp hurl hpass⟩
  · rw [hsource]
    exact ht.calls
  · intro packet' hp'
    rw [hsource] at hp'
    exact ht.packets packet' (hperm.subset (List.mem_cons_of_mem _ hp'))
  · intro q' hq'
    by_cases hr : q' = r
    · have hemits := Emits.onPacket (v.procs q') packet
      subst hr
      rw [hpass.target, Proc.calls, hemits.sent, hemits.answered, hemits.outbox, List.append_nil]
      exact ht.others q' hq'
    · rw [hpass.other q' hq' hr]
      exact ht.others q' hq'
  · rw [hpass.db]
    exact ht.db

theorem Trailing.step {e : Event} (ht : Trailing w p gone v) (he : e.internal = true)
    (hs : NodeServer.step v e = some z) : Trailing w p gone z ∧ TrailStep p v z := by
  cases e with
  | exec q outcome =>
    obtain ⟨c, r, h⟩ := exec_cases v z q outcome hs
    exact ht.executed h he hs
  | reply q => exact ht.replied hs
  | deliver q n r => exact ht.delivered hs
  | _ => cases he

/-- What every trailing step keeps holds when all of them are done. -/
theorem Trailing.reach (inv : World → Prop) (ht : Trailing w p gone v) (hv : inv v)
    (kept : ∀ v z, inv v → TrailStep p v z → inv z)
    (hrun : Run.Reach NodeServer.step (fun _ e => e.internal = true) v z) :
    Trailing w p gone z ∧ inv z := by
  refine hrun.invariant (fun z => Trailing w p gone z ∧ inv z) ⟨ht, hv⟩ ?_
  rintro a e b ⟨ha, hinv⟩ he hs
  obtain ⟨hb, hstep⟩ := ha.step he hs
  exact ⟨hb, kept a b hinv hstep⟩

end

/-! ### A session of the sending process -/

section

variable {w v : World} {p : Pid} {u s : Str} {notice : Notice} {user : User}

/- When the send is done the session is as the loop has left it. -/
structure Kept (v : World) (p : Pid) (u s : Str) (user : User) : Prop where
  entry : (v.procs p).userList.get s = some user
  listed : ∃ k ∈ v.recordsOf u, v.socketOf k = s

end

/-! ### A session of another process -/

/- A packet for the session `s` of `p` is on its way from `q`, or has arrived. -/
structure Arriving (w : World) (p q : Pid) (s : Str) (user : User) (notice : Notice) (v : World) :
    Prop where
  users : (v.procs p).userList = (w.procs p).userList
  packets : ∀ packet ∈ (v.procs q).outbox, packet.socketId = s →
    packet.url = appInfo p ∧ packet.notice = notice
  state : ((v.procs q).outbox.countP (fun packet => packet.socketId = s) = 1 ∧
      (v.procs p).frames s = (w.procs p).frames s ∧
      (v.procs p).noticeId user.ref = (w.procs p).noticeId user.ref ∧
      (v.procs p).ws s = some .opened) ∨
    ((v.procs q).outbox.countP (fun packet => packet.socketId = s) = 0 ∧
      Told (w.procs p) (v.procs p) s user
        (.notice ((w.procs p).noticeId user.ref) notice (some s))
        (if notice.isKick then .closing else .opened))

section

variable {w v z : World} {p q : Pid} {u s : Str} {notice : Notice} {user : User}

/-- A packet for another session, of whichever process. -/
theorem Arriving.other (ha : Arriving w p q s user notice v) (hreach : Reachable w)
    (hentry : (w.procs p).userList.get s = some user) (hq : q ≠ p) {r : Pid} {packet : Packet}
    (hpass : Passed v z q r packet) (hr : r ≠ q) (hs : packet.socketId ≠ s) :
    Arriving w p q s user notice z := by
  have hw := (allLive_reach hreach).1
  obtain ⟨outbox, hsource, hperm⟩ := hpass.source
  have hcount : (z.procs q).outbox.countP (fun packet => packet.socketId = s) =
      (v.procs q).outbox.countP fun packet => packet.socketId = s := by
    rw [hsource, ← hperm.countP_eq, List.countP_cons_of_neg (by simpa using hs)]
  have hsame : (z.procs p).userList = (v.procs p).userList ∧
      (z.procs p).conns.get s = (v.procs p).conns.get s ∧
      (z.procs p).noticeId user.ref = (v.procs p).noticeId user.ref := by
    by_cases hp : p = r
    · subst hp
      have hothers : ∀ other, (v.procs p).userList.get packet.socketId = some other →
          other.socketId ≠ s ∧ other.ref ≠ user.ref := by
        intro other ho
        rw [ha.users] at ho
        obtain ⟨hsock, -⟩ := hw.users p _ other ho
        refine ⟨by rw [hsock]; exact hs, fun href => ?_⟩
        have heq := (reachable_refs hreach p hentry).2 _ other ho href
        obtain ⟨hsock', -⟩ := hw.users p _ user hentry
        exact hs (by rw [← hsock, heq, hsock'])
      obtain ⟨hconn, hid⟩ := onPacket_others (v.procs p) packet hothers
      rw [hpass.target]
      exact ⟨(Emits.onPacket _ packet).userList, hconn, hid⟩
    · rw [hpass.other p (fun heq => hq heq.symm) hp]
      exact ⟨rfl, rfl, rfl⟩
  obtain ⟨husers, hconn, hid⟩ := hsame
  have hframes : (z.procs p).frames s = (v.procs p).frames s := by simp only [Proc.frames, hconn]
  have hws : (z.procs p).ws s = (v.procs p).ws s := by simp only [Proc.ws, hconn]
  refine ⟨husers.trans ha.users, ?_, ?_⟩
  · intro packet' hp' hs'
    rw [hsource] at hp'
    exact ha.packets packet' (hperm.subset (List.mem_cons_of_mem _ hp')) hs'
  · rw [hcount, hframes, hid, hws]
    rcases ha.state with hbefore | ⟨hnone, htold⟩
    · exact Or.inl hbefore
    · exact Or.inr ⟨hnone, hframes.trans htold.frames, hid.trans htold.counted, hws.trans htold.ws⟩

/-- The packet for the session itself. -/
theorem Arriving.mine (ha : Arriving w p q s user notice v) (hreach : Reachable w)
    (hentry : (w.procs p).userList.get s = some user) {r : Pid} {packet : Packet}
    (hmem : packet ∈ (v.procs q).outbox) (hurl : packet.url = appInfo r)
    (hpass : Passed v z q r packet) (hs : packet.socketId = s) :
    Arriving w p q s user notice z := by
  have hw := (allLive_reach hreach).1
  obtain ⟨hurl', hnotice⟩ := ha.packets packet hmem hs
  obtain rfl : r = p := appInfo_injective (hurl.symm.trans hurl')
  obtain ⟨outbox, hsource, hperm⟩ := hpass.source
  have hcount : (v.procs q).outbox.countP (fun packet => packet.socketId = s) =
      (z.procs q).outbox.countP (fun packet => packet.socketId = s) + 1 := by
    rw [hsource, ← hperm.countP_eq, List.countP_cons_of_pos (by simpa using hs)]
  refine ⟨?_, ?_, ?_⟩
  · rw [hpass.target, (Emits.onPacket _ packet).userList]
    exact ha.users
  · intro packet' hp' hs'
    rw [hsource] at hp'
    exact ha.packets packet' (hperm.subset (List.mem_cons_of_mem _ hp')) hs'
  · rcases ha.state with ⟨hone, hframes, hid, hopen⟩ | ⟨hnone, -⟩
    · right
      have huser : (v.procs r).userList.get packet.socketId = some user := by
        rw [ha.users, hs]
        exact hentry
      have hsocket : user.socketId = packet.socketId := by
        rw [hs]
        exact (hw.users r s user hentry).1
      have htold := onPacket_told (v.procs r) packet huser hsocket (by rw [hs]; exact hopen)
      rw [← hpass.target, hs, hid, hnotice] at htold
      exact ⟨by omega, htold.frames.trans (by rw [hframes]), htold.counted.trans (by rw [hid]),
        htold.ws⟩
    · omega

theorem Arriving.step (ha : Arriving w p q s user notice v) (hreach : Reachable w)
    (hentry : (w.procs p).userList.get s = some user) (hq : q ≠ p) (hstep : TrailStep q v z) :
    Arriving w p q s user notice z := by
  cases hstep with
  | call tables =>
    obtain ⟨hconns, husers, hids, -⟩ := tables p
    obtain ⟨-, -, -, hout⟩ := tables q
    have hframes : (z.procs p).frames s = (v.procs p).frames s := by simp only [Proc.frames, hconns]
    have hws : (z.procs p).ws s = (v.procs p).ws s := by simp only [Proc.ws, hconns]
    refine ⟨husers.trans ha.users, ?_, ?_⟩
    · rw [hout]
      exact ha.packets
    · rw [hout, hframes, hids, hws]
      rcases ha.state with hbefore | ⟨hnone, htold⟩
      · exact Or.inl hbefore
      · exact Or.inr ⟨hnone, hframes.trans htold.frames,
          (congrFun hids _).trans htold.counted, hws.trans htold.ws⟩
  | packet r packet other mem url passed =>
    by_cases hs : packet.socketId = s
    · exact ha.mine hreach hentry mem url passed hs
    · exact ha.other hreach hentry hq passed other hs

end

/-! ### Every send comes to its end -/

section

variable {w : World} {p : Pid}

theorem Event.unprompted_of_internal {e : Event} (h : e.internal = true) :
    e.unprompted = true := by
  cases e with
  | exec p outcome => rfl
  | reply p => rfl
  | deliver q n p => rfl
  | _ => cases h

/-- Calls, callbacks and packets can be served until there are none. -/
theorem exists_served {ps : Finset Pid} (hw : WF w) (ha : Addressed w) (hps : IdleOutside ps w) :
    ∃ v, Run.Reach step (fun _ e => e.internal = true) w v ∧
      ∀ q, (v.procs q).calls = [] ∧ (v.procs q).outbox = [] := by
  refine Run.exists_done _ (fun v => WF v ∧ Addressed v ∧ IdleOutside ps v) _ smaller_wf.cutExpand
    (World.tasks ps) ?_ ?_ w ⟨hw, ha, hps⟩
  · rintro v e v' ⟨hv, hav, hidle⟩ he hs
    obtain ⟨hidle', hlower⟩ := hidle.step hv (Event.unprompted_of_internal he) hs
    exact ⟨⟨hv.step hs, hav.step hv hs, hidle'⟩, hlower⟩
  · rintro v ⟨-, hav, -⟩
    by_contra hno
    push Not at hno
    obtain ⟨⟨q, hq⟩, hstuck⟩ := hno
    have hsent : (v.procs q).sent = [] := by
      cases hsent : (v.procs q).sent with
      | nil => rfl
      | cons c rest =>
        obtain ⟨order, v', hv'⟩ := exec_enabled hsent
        exact absurd hv' (hstuck _ v' rfl)
    have hans : (v.procs q).answered = [] := by
      cases hans : (v.procs q).answered with
      | nil => rfl
      | cons cr rest =>
        obtain ⟨v', hv'⟩ := reply_enabled hans
        exact absurd hv' (hstuck _ v' rfl)
    cases hout : (v.procs q).outbox with
    | nil => exact hq (by rw [Proc.calls, hsent, hans]; rfl) hout
    | cons packet rest =>
      obtain ⟨r, hurl⟩ := hav q packet (by rw [hout]; exact List.mem_cons_self ..)
      have henabled : (step v (.deliver q 0 r)).isSome = true := by
        simp [step, inputOf, hout, hurl]
      obtain ⟨v', hv'⟩ := Option.isSome_iff_exists.mp henabled
      exact hstuck _ v' rfl hv'

theorem WF.calling {c : Call} (hw : WF w) (hc : CallOk w.own p c) :
    WF (w.calm.setProc p ((w.calm.procs p).issue c)) := by
  have hproc : ∀ q, ∃ sent, (w.calm.setProc p ((w.calm.procs p).issue c)).procs q =
      { w.calm.procs q with sent := sent } ∧ ∀ c' ∈ sent, q = p ∧ c' = c := by
    intro q
    by_cases hq : q = p
    · rw [hq, setProc_self]
      exact ⟨_, rfl, fun c' hc' => ⟨rfl, List.mem_singleton.mp hc'⟩⟩
    · rw [setProc_ne _ p q _ hq]
      exact ⟨[], rfl, List.forall_mem_nil _⟩
  have hown : (w.calm.setProc p ((w.calm.procs p).issue c)).own = w.own := by
    funext q s
    obtain ⟨sent, hq, -⟩ := hproc q
    rw [World.own, hq]
    rfl
  constructor
  · rw [hown]
    exact hw.ids
  · exact hw.shape
  · rw [hown]
    exact hw.owner
  · intro q s user hu
    obtain ⟨sent, hq, -⟩ := hproc q
    rw [hq] at hu
    rw [hown]
    exact hw.users q s user hu
  · intro q c' hc'
    obtain ⟨sent, hq, hsent⟩ := hproc q
    rw [hq] at hc'
    obtain ⟨rfl, rfl⟩ := hsent c' hc'
    rw [hown]
    exact hc
  · intro q c' r hm
    obtain ⟨sent, hq, -⟩ := hproc q
    rw [hq] at hm
    cases hm
  · rw [hown]
    exact hw.db

theorem IdleOutside.calling {ps : Finset Pid} (hps : IdleOutside ps w) (p : Pid) (c : Call) :
    IdleOutside (insert p ps) (w.calm.setProc p ((w.calm.procs p).issue c)) := by
  intro q hq
  rw [Finset.mem_insert, not_or] at hq
  rw [setProc_ne _ p q _ hq.1]
  show ({ (w.procs q).alone with uncaught := false } : Proc) = _
  rw [hps q hq.2]
  rfl

/-- A call that is made with nothing else in flight comes to its end. -/
theorem exists_ends {ps : Finset Pid} {c : Call} (hw : WF w) (hps : IdleOutside ps w)
    (hc : CallOk w.own p c) : ∃ v, Ends w p ((w.calm.procs p).issue c) v := by
  have haddressed : Addressed (w.calm.setProc p ((w.calm.procs p).issue c)) := by
    intro q packet hp
    by_cases hq : q = p
    · rw [hq, setProc_self] at hp
      cases hp
    · rw [setProc_ne _ p q _ hq] at hp
      cases hp
  obtain ⟨v, hrun, hdone⟩ := exists_served (hw.calling hc) haddressed (hps.calling p c)
  exact ⟨v, hrun, hdone⟩

theorem notice_callOk (w : World) (p : Pid) (u : Str) (notice : Notice) :
    CallOk w.own p (.lookupKeys u (.notice notice .nobody)) := by
  refine ⟨trivial, fun l hl => ?_⟩
  cases hl

theorem exists_sent (hreach : Reachable w) (p : Pid) (u : Str) (notice : Notice) :
    ∃ v, Sent w p u notice v := by
  obtain ⟨ps, hps⟩ := reachable_idleOutside hreach
  exact exists_ends (allLive_reach hreach).1 hps (notice_callOk w p u notice)

section

variable {u : Str} {notice : Notice} {v : World} {l : LoginReq}

theorem Sent.wf (h : Sent w p u notice v) (hreach : Reachable w) : WF v :=
  ((allLive_reach hreach).1.calling (notice_callOk w p u notice)).reach h.run

end

end

/-! ### The two ways compared -/

section

variable {w v : World} {p q : Pid} {u s k : Str} {rec : User} {notice : Notice}

/-- Where lookups of `u` find the records of `u` and no others, each of them is listed
once. -/
theorem LookupSafe.listedOnce (hw : WF w) (hsafe : LookupSafe w p u)
    (hrec : w.db.get (uniquePattern u s) = some (.hash rec.record)) (hu : rec.userId = u) :
    ListedOnce w u s := by
  have hkey : uniquePattern u s ∈ w.recordsOf u := by
    refine mem_recordsOf.mpr ⟨by rw [hrec]; simp, ?_⟩
    exact (hsafe _ rec.record ⟨IsOnlineKey.user u s, hrec⟩).1.mpr hu
  have hiff : ∀ k ∈ w.recordsOf u, (w.socketOf k = s ↔ k = uniquePattern u s) := by
    intro k hk
    obtain ⟨hget, hmatch⟩ := mem_recordsOf.mp hk
    obtain ⟨value, hvalue⟩ := Option.ne_none_iff_exists'.mp hget
    have hon := userIdPattern_family u k hmatch
    obtain ⟨rec', o, hof, rfl, rfl⟩ := entry_online w.own w.db hw.db hon hvalue
    have huser : rec'.userId = u := (hsafe _ rec'.record ⟨hon, hvalue⟩).1.mp hmatch
    have hsocket : w.socketOf rec'.key = rec'.socketId := by
      simp only [World.socketOf, hvalue, fieldOf_record_socketId]
    rw [hsocket, User.key, huser]
    exact ⟨fun h => by rw [h], fun h => uniquePattern_socket_inj h⟩
  have hcount : (w.recordsOf u).countP (fun k => w.socketOf k = s) =
      (w.recordsOf u).count (uniquePattern u s) := by
    refine List.countP_congr fun k hk => ?_
    simpa using hiff k hk
  rw [ListedOnce, hcount]
  exact List.count_eq_one_of_mem ((AList.keys_nodup w.db).filter _) hkey

theorem sendOne_newRef (x : Proc) (q : Pid) (notice : Notice) (user : User) :
    x.newRef.sendOne q notice user = (x.sendOne q notice user).newRef := by
  unfold Proc.sendOne Proc.noticeSend
  by_cases happ : user.appInfo = appInfo q
  · simp only [happ, if_true]
    by_cases hweb : user.websocket = true
    · simp only [hweb, if_true, Proc.wsSend]
      by_cases hopen : x.ws user.socketId = some .opened
      · have h1 : (x.newRef.bumpNotice user).ws user.socketId = some .opened := hopen
        have h2 : (x.bumpNotice user).ws user.socketId = some .opened := hopen
        simp only [h1, h2, if_true]
        rfl
      · have h1 : (x.newRef.bumpNotice user).ws user.socketId ≠ some .opened := hopen
        have h2 : (x.bumpNotice user).ws user.socketId ≠ some .opened := hopen
        simp only [h1, h2, if_false]
        rfl
    · simp only [hweb]
      rfl
  · simp only [happ, if_false]
    rfl

/-- A send to a user with one record is its lookup followed by one turn of the loop. -/
theorem sent_iff_turn (honly : w.recordsOf u = [k])
    (hk : w.db.get k = some (.hash rec.record)) :
    Sent w q u notice v ↔ Ends w q (w.calm.sentBy q notice rec.record).newRef v := by
  have hturn : (w.calm.procs q).newRef.sendAll q notice
        [(w.calm.procs q).getUserWithRedis rec.record] =
      (w.calm.sentBy q notice rec.record).newRef := sendOne_newRef _ q notice _
  rw [← hturn]
  constructor
  · intro h
    obtain ⟨order, r, hr, hnext⟩ :=
      Ends.read (c := .lookupKeys u (.notice notice .nobody)) ⟨rfl, rfl, rfl⟩ rfl h
    obtain ⟨rfl, hperm⟩ := Store.inOrder_array order _ r hr
    have horder : order = [k] := List.perm_singleton.mp (honly ▸ hperm)
    subst horder
    obtain ⟨order', r', hr', hdone⟩ :=
      Ends.read (c := .lookupHash k [] [] (.notice notice .nobody)) ⟨rfl, rfl, rfl⟩ rfl hnext
    have hreply : r' = .hash rec.record := by
      simp only [Call.txn, Store.Txn.run, Store.Cmd.run, Store.hgetall, hk] at hr'
      exact (Option.some.inj hr').symm
    subst hreply
    exact hdone
  · intro h
    have horder : (Store.keys (userIdPattern u) w.calm.db).inOrder [k] = some (.array [k]) := by
      have hlist : Store.keys (userIdPattern u) w.calm.db = .array [k] := congrArg _ honly
      rw [hlist]
      exact Store.listed_elements (.array [k])
    have hfold : lookupFold w.calm.db [k] (w.calm.procs q).idle [] =
        some ((w.calm.procs q).newRef, [(w.calm.procs q).getUserWithRedis rec.record]) := by
      have hget : Store.hgetall k w.calm.db = .hash rec.record := by
        simp only [Store.hgetall, World.calm, hk]
      simp only [lookupFold, hget, List.nil_append]
      rfl
    have hruns := lookup_runs w.calm q u (.notice notice .nobody) [k] _ _ horder hfold
    refine ⟨(Run.reach_of_runs _ _ _ ?_ hruns).trans h.run, h.done⟩
    intro e he _
    simp only [lookupEvents, readEvents, List.flatMap_cons, List.flatMap_nil, List.append_nil,
      List.cons_append, List.nil_append, List.mem_cons, List.not_mem_nil, or_false] at he
    rcases he with rfl | rfl | rfl | rfl
    · rfl
    · rfl
    · rfl
    · rfl

/-- Another process forwards the notice and leaves the record. -/
theorem sent_remote_keeps (hw : WF w) (hof : UserOf w.own p rec) (hq : q ≠ p)
    (honly : w.recordsOf u = [k]) (hk : w.db.get k = some (.hash rec.record))
    (h : Sent w q u notice v) : v.db.get k = some (.hash rec.record) := by
  have hends := (sent_iff_turn honly hk).mp h
  have hsent : w.calm.sentBy q notice rec.record =
      (w.calm.procs q).emit ⟨appInfo p, rec.socketId, notice⟩ :=
    hw.sendOne_remote hof hq (w.calm.procs q) rfl notice
  rw [hsent] at hends
  have htrail : Trailing w q []
      (w.calm.setProc q ((w.calm.procs q).emit ⟨appInfo p, rec.socketId, notice⟩).newRef) := by
    refine ⟨?_, ?_, ?_, fun _ _ => rfl⟩
    · rw [setProc_self]
      exact List.forall_mem_nil _
    · rw [setProc_self]
      intro packet hp
      rw [List.mem_singleton.mp hp]
      exact ⟨p, fun heq => hq heq.symm, rfl⟩
    · intro r hr
      rw [setProc_ne _ q r _ hr]
      exact ⟨rfl, rfl⟩
  obtain ⟨hdone, -⟩ := htrail.reach (fun _ => True) trivial (fun _ _ _ _ => trivial) hends.run
  rw [hdone.db k (List.forall_mem_nil _), hk]

/-- A dead session of a user with one record is cleaned up by a send exactly when the
send is made on its own process and finds the session under the user of its record. -/
theorem dead_session_sent_iff (w : World) (p q : Pid) (u : Str) (notice : Notice) (k : Str)
    (fields : List (Str × Str)) (hreach : Reachable w) (hrec : OnlineRecord w.db k fields)
    (howner : Carries p fields) (honly : w.recordsOf u = [k])
    (hdead : (w.procs p).ws (fieldOf fields SocketIdKey) ≠ some .opened ∨
      (w.procs p).userList.get (fieldOf fields SocketIdKey) = none) :
    (∀ v, Sent w q u notice v → Cleaned v p k (fieldOf fields SocketIdKey)) ↔
      q = p ∧ ∀ user, (w.procs p).userList.get (fieldOf fields SocketIdKey) = some user →
        user.userId = fieldOf fields UserIdKey := by
  have hw := (allLive_reach hreach).1
  obtain ⟨rec, rfl, rfl, hof⟩ := hw.record_user hrec howner
  rw [fieldOf_record_socketId] at hdead ⊢
  have hid : fieldOf rec.record UserIdKey = rec.userId := rfl
  rw [hid]
  obtain ⟨-, hs, hentry, himage⟩ := found_spec hw hof
  have hkey : (w.found p rec).key = rec.key ↔ (w.found p rec).userId = rec.userId := by
    simp [User.key, uniquePattern, hs]
  -- the logout of the user that is found, from the process with the object it has made
  have hlogout : ∀ v, Sent w p u notice v ↔ v = (w.calm.setProc p
      (((w.calm.procs p).bumpNotice (w.found p rec)).newRef.logout (w.found p rec))).served p
        (.logoutDel (w.found p rec)) := by
    intro v
    rw [sent_iff_turn honly hrec.2, sentBy_owner hw hof notice hdead]
    have hone := calm_oneCall w p (x := (((w.calm.procs p).bumpNotice (w.found p rec)).newRef.delUser
      (w.found p rec).socketId)) ⟨rfl, rfl, rfl⟩ (.logoutDel (w.found p rec))
    refine Iff.trans ?_ (hone.served_iff (fun _ _ => rfl) ⟨_, rfl⟩)
    constructor
    · intro h
      exact ⟨h.run, h.done⟩
    · intro h
      exact ⟨h.1, h.2⟩
  have hcleaned := logout_cleaned_iff w p
    (x := ((w.calm.procs p).bumpNotice (w.found p rec)).newRef) rfl (w.found p rec) rec.key
    (by rw [hrec.2]; simp)
  rw [hs] at hcleaned
  constructor
  · intro hall
    by_cases hq : q = p
    · subst hq
      refine ⟨rfl, fun user hu => ?_⟩
      rw [← hentry user hu]
      exact hkey.mp (hcleaned.mp (hall _ ((hlogout _).mpr rfl)))
    · obtain ⟨v, hv⟩ := exists_sent hreach q u notice
      have hstays := sent_remote_keeps hw hof hq honly hrec.2 hv
      rw [(hall v hv).record] at hstays
      cases hstays
  · rintro ⟨rfl, huser⟩ v hv
    rw [(hlogout v).mp hv]
    refine hcleaned.mpr (hkey.mpr ?_)
    cases hu : (w.procs q).userList.get rec.socketId with
    | none => exact (himage hu).2
    | some user =>
      rw [hentry user hu]
      exact huser user hu

end

end NodeServer

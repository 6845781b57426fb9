import NodeServer.Lib.Queue
import NodeServer.Proof.Notices
import NodeServer.Proof.Lookup
import NodeServer.Proof.LoginGate
import Mathlib.Algebra.GroupWithZero.Nat
import Mathlib.Data.List.Perm.Basic

/-! # Private messages

`SendMsgHandler` looks the target up and hands every session it finds to
`NoticeSender.send`, which looks the target up again and sends to every session it
finds. A message is followed from its request to the last frame: what is still
owed to a session by lookups under way and notices forwarded, and what has been
written to it, always add up to the number of records of the target. -/

namespace NodeServer

open DBModelKeys

/- The records a lookup of `u` finds. -/
def World.recordsOf (w : World) (u : Str) : List Str :=
  (AList.keys w.db).filter fun k => Glob.stringmatch (userIdPattern u) k

/- A session registered for `u`: its record is stored, its websocket is open and
its process knows it. -/
structure OpenSession (w : World) (u : Str) (q : Pid) (t : Str) : Prop where
  recorded : w.db.get (uniquePattern u t) ≠ none
  opened : (w.procs q).ws t = some .opened
  known : (w.procs q).userList.get t ≠ none

def Frame.carries (notice : Notice) : Frame → Bool
  | .notice _ sent _ => sent = notice
  | .respond _ => false

/- Since `w` exactly `n` notices have been written to a connection, all of them
this one. -/
def Receives (w v : World) (notice : Notice) (q : Pid) (t : Str) (n : ℕ) : Prop :=
  ∃ news, (v.procs q).noticed t = (w.procs q).noticed t ++ news ∧
    (∀ frame ∈ news, frame.carries notice = true) ∧ news.length = n

theorem Receives.unique {w v : World} {notice : Notice} {q : Pid} {t : Str} {m n : ℕ}
    (h : Receives w v notice q t m) (k : Receives w v notice q t n) : m = n := by
  obtain ⟨news, hn, _, rfl⟩ := h
  obtain ⟨news', hn', _, rfl⟩ := k
  rw [hn] at hn'
  rw [List.append_cancel_left hn']

theorem Receives.more {w v v' : World} {notice : Notice} {q : Pid} {t : Str} {n : ℕ}
    (h : Receives w v notice q t n) {frames : List Frame}
    (hv : (v'.procs q).noticed t = (v.procs q).noticed t ++ frames)
    (hframes : ∀ frame ∈ frames, frame.carries notice = true) :
    Receives w v' notice q t (n + frames.length) := by
  obtain ⟨news, hn, hcarries, rfl⟩ := h
  refine ⟨news ++ frames, ?_, ?_, List.length_append⟩
  · rw [hv, hn, List.append_assoc]
  · intro frame hf
    rcases List.mem_append.mp hf with hf | hf
    · exact hcarries frame hf
    · exact hframes frame hf

/-! ### The loop of `NoticeSender.send` -/

theorem sendOne_writes_iff (p : Pid) (notice : Notice) (u user : User) (x : Proc) :
    (x.sendOne p notice u).Writes p user ↔ x.Writes p user := by
  simp only [Proc.Writes, Proc.Sendable, (sendOne_spec p notice u x).ws]

/- A connection is written one frame for each of its users in the list. -/
theorem noticesSent_length (p : Pid) (notice : Notice) (userList : List User) (x : Proc) (t : Str) :
    (framesFor t (Proc.noticesSent p notice userList x)).length =
      userList.countP fun user => decide (user.socketId = t) && decide (x.Writes p user) := by
  induction userList generalizing x with
  | nil => rfl
  | cons u userList ih =>
    simp only [Proc.noticesSent, framesFor_append, List.length_append, List.countP_cons,
      ih (x.sendOne p notice u), sendOne_writes_iff]
    rw [Nat.add_comm]
    congr 1
    by_cases hw : x.Writes p u
    · by_cases ht : u.socketId = t
      · simp [framesFor, hw, ht]
      · simp [framesFor, hw, ht]
    · simp [framesFor, hw]

theorem noticesSent_carries {p : Pid} {notice : Notice} {userList : List User} {x : Proc}
    {a : User × Frame} (ha : a ∈ Proc.noticesSent p notice userList x) :
    a.2.carries notice = true := by
  induction userList generalizing x with
  | nil => cases ha
  | cons u userList ih =>
    rcases List.mem_append.mp ha with ha | ha
    · split at ha
      · rw [List.mem_singleton.mp ha]
        simp [Frame.carries]
      · cases ha
    · exact ih ha

/-! ### The calls of a message -/

section

variable (w : World) (p : Pid) (u : Str) (sender : User) (msg : JsVal)

/- A user a lookup of `u` on `p` returns. -/
structure ChatUser (user : User) : Prop where
  userId : user.userId = u
  record : uniquePattern u user.socketId ∈ w.recordsOf u
  owner : ∃ q, UserOf w.own q user
  entry : user.websocket = true → (w.procs p).userList.get user.socketId = some user
  known : OpenSession w u p user.socketId → user.websocket = true

/- The lookup of the handler, and those of `NoticeSender.send`. -/
inductive ChatNext : LookupFor → Prop
  | first : ChatNext (.sendMsg sender msg)
  | notice : ChatNext (.notice (sendMsgNotice sender.userId msg) .nobody)

inductive ChatCall : Call → Prop
  | keys (next : LookupFor) (chat : ChatNext sender msg next) : ChatCall (.lookupKeys u next)
  | hash (key : Str) (rest : List Str) (found : List User) (next : LookupFor)
      (chat : ChatNext sender msg next) (keys : ∀ k ∈ key :: rest, k ∈ w.recordsOf u)
      (users : ∀ user ∈ found, ChatUser w p u user) : ChatCall (.lookupHash key rest found next)
  | logout (user : User) : ChatCall (.logoutDel user)

/- The record of a session of `u`. -/
structure ChatRecord (k : Str) (rec : User) : Prop where
  userId : rec.userId = u
  key : k = uniquePattern u rec.socketId
  stored : w.db.get k = some (.hash rec.record)
  owner : ∃ q, UserOf w.own q rec

/- The notice on its way to a session on another process. -/
structure ChatPacket (packet : Packet) : Prop where
  notice : packet.notice = sendMsgNotice sender.userId msg
  recorded : w.db.get (uniquePattern u packet.socketId) ≠ none
  owner : ∃ q, q ≠ p ∧ packet.url = appInfo q ∧ w.own q packet.socketId

/- What Redis answers to them. -/
def ChatReply : Call → Store.Reply → Prop
  | .lookupKeys _ _, r => ∃ order, r = .array order ∧ order.Perm (w.recordsOf u)
  | .lookupHash key _ _ _, r => ∃ rec : User, r = .hash rec.record ∧ ChatRecord w u key rec
  | _, _ => True

end

/- How many callbacks are between a call of a message and the last notice, with
`n` records of the target. -/
def Call.chatRank (n : ℕ) : Call → ℕ
  | .lookupKeys _ (.notice _ _) => n + 1
  | .lookupHash _ rest _ (.notice _ _) => rest.length + 1
  | .lookupKeys _ _ => n + 1 + (n + 1)
  | .lookupHash _ rest _ _ => n + 1 + (rest.length + 1)
  | _ => 0

/- How many notices a call will send to the session `t`. -/
def Call.chatDue (u : Str) (n : ℕ) (t : Str) : Call → ℕ
  | .lookupKeys _ (.notice _ _) => 1
  | .lookupHash key rest found (.notice _ _) =>
    found.countP (fun user => user.socketId = t) + (key :: rest).count (uniquePattern u t)
  | .lookupKeys _ _ => n
  | .lookupHash _ rest found _ => found.length + (rest.length + 1)
  | _ => 0

/- A bound for the steps a call will lead to. -/
def Call.chatCost (n : ℕ) : Call → ℕ
  | .lookupKeys _ (.notice _ _) => 2 + 4 * n
  | .lookupHash _ rest found (.notice _ _) =>
    2 * (rest.length + 1) + 2 * (found.length + (rest.length + 1))
  | .lookupKeys _ _ => 2 + 2 * n + n * (2 + 4 * n)
  | .lookupHash _ rest found _ =>
    2 * (rest.length + 1) + (found.length + (rest.length + 1)) * (2 + 4 * n)
  | _ => 2

section

variable {w : World} {p : Pid} {u : Str} {sender : User} {msg : JsVal}

/- What the callback of a call of the message does, in its own process. -/
structure ChatTurn (w : World) (p : Pid) (u : Str) (sender : User) (msg : JsVal) (c : Call)
    (x y : Proc) (news : List Call) (outs : List Packet) (ws : List (User × Frame)) : Prop where
  sent : y.sent = x.sent ++ news
  answered : y.answered = x.answered
  outbox : y.outbox = x.outbox ++ outs
  sockets : ∀ t, y.ws t = x.ws t
  users : ∀ t, y.userList.get t = x.userList.get t ∨
    (y.userList.get t = none ∧ (w.procs p).ws t ≠ some .opened)
  noticed : ∀ t, y.noticed t = x.noticed t ++ framesFor t ws
  calls : ∀ d ∈ news, ChatCall w p u sender msg d ∧
    d.chatRank (w.recordsOf u).length + 1 = c.chatRank (w.recordsOf u).length
  packets : ∀ packet ∈ outs, ChatPacket w p u sender msg packet
  carries : ∀ a ∈ ws, a.2.carries (sendMsgNotice sender.userId msg) = true
  balance : ∀ q t, OpenSession w u q t →
    (if q = p then (framesFor t ws).length else 0) +
        (news.map (Call.chatDue u (w.recordsOf u).length t)).sum +
        outs.countP (fun packet => packet.socketId = t) =
      c.chatDue u (w.recordsOf u).length t
  shut : ∀ t, ¬ OpenSession w u p t → framesFor t ws = []
  cost : (news.map (Call.chatCost (w.recordsOf u).length)).sum + outs.length + 2 ≤
    c.chatCost (w.recordsOf u).length

/- Callbacks that only issue calls. -/
theorem ChatTurn.issues {c : Call} {x y : Proc} {news : List Call} (hsent : y.sent = x.sent ++ news)
    (hans : y.answered = x.answered) (hout : y.outbox = x.outbox) (hconns : y.conns = x.conns)
    (husers : y.userList = x.userList)
    (hcalls : ∀ d ∈ news, ChatCall w p u sender msg d ∧
      d.chatRank (w.recordsOf u).length + 1 = c.chatRank (w.recordsOf u).length)
    (hdue : ∀ q t, OpenSession w u q t →
      (news.map (Call.chatDue u (w.recordsOf u).length t)).sum =
        c.chatDue u (w.recordsOf u).length t)
    (hcost : (news.map (Call.chatCost (w.recordsOf u).length)).sum + 2 ≤
      c.chatCost (w.recordsOf u).length) :
    ChatTurn w p u sender msg c x y news [] [] where
  sent := hsent
  answered := hans
  outbox := by rw [hout, List.append_nil]
  sockets := by
    intro t
    rw [Proc.ws, hconns]
    rfl
  users := by
    intro t
    rw [husers]
    exact Or.inl rfl
  noticed := by
    intro t
    simp [Proc.noticed, hconns, framesFor]
  calls := hcalls
  packets := by
    intro packet hp
    cases hp
  carries := by
    intro a ha
    cases ha
  balance := by
    intro q t ho
    simp [framesFor, hdue q t ho]
  shut := fun t _ => rfl
  cost := by simpa using hcost

theorem mem_recordsOf {w : World} {u k : Str} : k ∈ w.recordsOf u ↔
    w.db.get k ≠ none ∧ Glob.stringmatch (userIdPattern u) k = true := by
  rw [World.recordsOf, List.mem_filter, Table.mem_keys_iff, Option.ne_none_iff_exists']

theorem OpenSession.listed {q : Pid} {t : Str} (h : OpenSession w u q t) (hu : Glob.plain u) :
    (w.recordsOf u).count (uniquePattern u t) = 1 := by
  apply List.count_eq_one_of_mem
  · exact (AList.keys_nodup w.db).filter _
  · exact mem_recordsOf.mpr ⟨h.recorded, userIdPattern_self u t hu⟩

theorem recordsOf_record (hw : WF w) (hsafe : LookupSafe w p u) {k : Str} (hk : k ∈ w.recordsOf u) :
    ∃ rec, ChatRecord w u k rec := by
  obtain ⟨hget, hmatch⟩ := mem_recordsOf.mp hk
  obtain ⟨value, hvalue⟩ := Option.ne_none_iff_exists'.mp hget
  have hon : IsOnlineKey k := userIdPattern_family u k hmatch
  obtain ⟨rec, q, hof, hkey, rfl⟩ := entry_online w.own w.db hw.db hon hvalue
  have hid : rec.userId = u := (hsafe k rec.record ⟨hon, hvalue⟩).1.mp hmatch
  refine ⟨rec, hid, ?_, hvalue, q, hof⟩
  rw [hkey, User.key, hid]

/- `KEYS` has been answered: the first record is read. -/
theorem ChatTurn.keys (hu : Glob.plain u) {next : LookupFor} (hchat : ChatNext sender msg next)
    (order : List Str) (hperm : order.Perm (w.recordsOf u)) (x : Proc) :
    ∃ news, ChatTurn w p u sender msg (.lookupKeys u next) x
      (x.onReply p (.lookupKeys u next) (.array order)) news [] [] := by
  have hlength := hperm.length_eq
  cases order with
  | nil =>
    have hnil : w.recordsOf u = [] := List.nil_perm.mp hperm
    have hdone : x.onReply p (.lookupKeys u next) (.array []) = x := by
      cases hchat with
      | first => rfl
      | notice => rfl
    rw [hdone]
    refine ⟨[], ChatTurn.issues (List.append_nil _).symm rfl rfl rfl rfl ?_ ?_ ?_⟩
    · intro d hd
      cases hd
    · -- a registered session would have been listed
      intro q t ho
      have hone := ho.listed hu
      rw [hnil] at hone
      cases hone
    · cases hchat with
      | first => simp [Call.chatCost, hnil]
      | notice => simp [Call.chatCost]
  | cons key rest =>
    refine ⟨[.lookupHash key rest [] next], ChatTurn.issues rfl rfl rfl rfl rfl ?_ ?_ ?_⟩
    · intro d hd
      rw [List.mem_singleton.mp hd]
      refine ⟨.hash key rest [] next hchat (fun k hk => hperm.mem_iff.mp hk) ?_, ?_⟩
      · intro user hu
        cases hu
      · rw [List.length_cons] at hlength
        cases hchat with
        | first =>
          simp only [Call.chatRank]
          omega
        | notice =>
          simp only [Call.chatRank]
          omega
    · intro q t ho
      rw [List.map_singleton, List.sum_singleton]
      cases hchat with
      | first =>
        simp only [Call.chatDue, List.length_nil, Nat.zero_add]
        exact hlength
      | notice =>
        simp only [Call.chatDue, List.countP_nil, Nat.zero_add]
        rw [hperm.count_eq, ho.listed hu]
    · rw [List.map_singleton, List.sum_singleton, ← hlength, List.length_cons]
      cases hchat with
      | first =>
        simp only [Call.chatCost, List.length_nil, Nat.zero_add]
        omega
      | notice =>
        simp only [Call.chatCost, List.length_nil, Nat.zero_add]
        omega

/- The process's entries are those of `w`, except for dead sessions. -/
def UsersLeft (w : World) (p : Pid) (x : Proc) : Prop :=
  ∀ t, x.userList.get t = (w.procs p).userList.get t ∨
    (x.userList.get t = none ∧ (w.procs p).ws t ≠ some .opened)

/- The user read from a record. -/
theorem ChatUser.read (hw : WF w) (hsafe : LookupSafe w p u) {x : Proc} (hx : UsersLeft w p x)
    {rec : User} {key : Str} (h : ChatRecord w u key rec) (hk : key ∈ w.recordsOf u) :
    ChatUser w p u (x.getUserWithRedis rec.record) ∧
      (x.getUserWithRedis rec.record).socketId = rec.socketId := by
  have hkey := h.key
  subst hkey
  rw [getUserWithRedis_record]
  cases hget : x.userList.get rec.socketId with
  | some user =>
    have hentry : (w.procs p).userList.get rec.socketId = some user := by
      rcases hx rec.socketId with heq | ⟨hnone, _⟩
      · rw [← heq, hget]
      · rw [hget] at hnone
        cases hnone
    obtain ⟨hs, hloc⟩ := hw.users p _ user hentry
    have hname : user.userId = u := by
      refine (hsafe _ rec.record ⟨IsOnlineKey.user u rec.socketId, h.stored⟩).2 ?_ user ?_
      · rw [← h.userId]
        rfl
      · rw [fieldOf_record_socketId]
        exact hentry
    dsimp only
    refine ⟨⟨hname, ?_, ⟨p, hloc.1⟩, ?_, fun _ => hloc.2⟩, hs⟩
    · rw [hs]
      exact hk
    · intro _
      rw [hs]
      exact hentry
  | none =>
    dsimp only
    refine ⟨⟨h.userId, hk, h.owner, ?_, ?_⟩, rfl⟩
    · intro hws
      cases hws
    · intro ho
      rcases hx rec.socketId with heq | ⟨_, hshut⟩
      · rw [hget] at heq
        exact absurd heq.symm ho.known
      · exact absurd ho.opened hshut

theorem uniquePattern_socket_inj {u s t : Str} (h : uniquePattern u s = uniquePattern u t) :
    s = t := by
  have h := List.append_cancel_left h
  have h := List.append_cancel_left (List.cons.inj h).2
  exact (List.cons.inj h).2

/- One more record has been read. -/
theorem count_read {rec user : User} {key : Str} (h : ChatRecord w u key rec)
    (hs : user.socketId = rec.socketId) (found : List User) (rest : List Str) (t : Str) :
    (found ++ [user]).countP (fun user => user.socketId = t) + rest.count (uniquePattern u t) =
      found.countP (fun user => user.socketId = t) + (key :: rest).count (uniquePattern u t) := by
  have hone : [user].countP (fun user => user.socketId = t) =
      if key = uniquePattern u t then 1 else 0 := by
    rw [h.key]
    by_cases ht : rec.socketId = t
    · simp [hs, ht]
    · have hne : uniquePattern u rec.socketId ≠ uniquePattern u t :=
        fun heq => ht (uniquePattern_socket_inj heq)
      simp [hs, ht, hne]
  rw [List.countP_append, hone, List.count_cons]
  simp only [beq_iff_eq]
  omega

/- `HGETALL` has been answered and another record is to be read. -/
theorem ChatTurn.hash (hw : WF w) (hsafe : LookupSafe w p u) {next : LookupFor}
    (hchat : ChatNext sender msg next) {key key' : Str} {rest : List Str} {found : List User}
    (hkeys : ∀ k ∈ key :: key' :: rest, k ∈ w.recordsOf u)
    (hfound : ∀ user ∈ found, ChatUser w p u user) {rec : User} (hrec : ChatRecord w u key rec)
    {x : Proc} (hx : UsersLeft w p x) :
    ∃ news, ChatTurn w p u sender msg (.lookupHash key (key' :: rest) found next) x
      (x.onReply p (.lookupHash key (key' :: rest) found next) (.hash rec.record)) news [] [] := by
  obtain ⟨huser, hs⟩ := ChatUser.read hw hsafe hx hrec (hkeys key (List.mem_cons_self ..))
  refine ⟨[.lookupHash key' rest (found ++ [x.getUserWithRedis rec.record]) next],
    ChatTurn.issues rfl rfl rfl rfl rfl ?_ ?_ ?_⟩
  · intro d hd
    rw [List.mem_singleton.mp hd]
    refine ⟨.hash key' rest _ next hchat (fun k hk => hkeys k (List.mem_cons_of_mem _ hk)) ?_, ?_⟩
    · intro user hu
      rcases List.mem_append.mp hu with hu | hu
      · exact hfound user hu
      · rw [List.mem_singleton.mp hu]
        exact huser
    · cases hchat with
      | first => rfl
      | notice => rfl
  · intro q t ho
    rw [List.map_singleton, List.sum_singleton]
    cases hchat with
    | first =>
      simp only [Call.chatDue, List.length_append, List.length_cons, List.length_nil]
      omega
    | notice =>
      simp only [Call.chatDue]
      exact count_read hrec hs found (key' :: rest) t
  · rw [List.map_singleton, List.sum_singleton]
    cases hchat with
    | first =>
      simp only [Call.chatCost, List.length_append, List.length_cons, List.length_nil]
      rw [show found.length + (0 + 1) + (rest.length + 1) = found.length + (rest.length + 1 + 1) by
        omega]
      omega
    | notice =>
      simp only [Call.chatCost, List.length_append, List.length_cons, List.length_nil]
      omega

/- The handler's lookup is done: one `NoticeSender.send` for each session. -/
theorem ChatTurn.lookedUp (hw : WF w) (hsafe : LookupSafe w p u) {key : Str} {found : List User}
    (hkey : key ∈ w.recordsOf u) (hfound : ∀ user ∈ found, ChatUser w p u user) {rec : User}
    (hrec : ChatRecord w u key rec) {x : Proc} (hx : UsersLeft w p x) :
    ∃ news, ChatTurn w p u sender msg (.lookupHash key [] found (.sendMsg sender msg)) x
      (x.onReply p (.lookupHash key [] found (.sendMsg sender msg)) (.hash rec.record)) news
      [] [] := by
  obtain ⟨huser, _⟩ := ChatUser.read hw hsafe hx hrec hkey
  have hall : ∀ user ∈ found ++ [x.getUserWithRedis rec.record], user.userId = u := by
    intro user hu
    rcases List.mem_append.mp hu with hu | hu
    · exact (hfound user hu).userId
    · rw [List.mem_singleton.mp hu]
      exact huser.userId
  have hsends := Emits.sendMsgs x.newRef (sendMsgNotice sender.userId msg)
    (found ++ [x.getUserWithRedis rec.record])
  -- every session found is one of `u`
  have hnews : fanOut (sendMsgNotice sender.userId msg)
      ((found ++ [x.getUserWithRedis rec.record]).map User.userId) =
        List.replicate (found.length + 1)
          (.lookupKeys u (.notice (sendMsgNotice sender.userId msg) .nobody)) := by
    apply List.eq_replicate_iff.mpr
    refine ⟨by simp [fanOut], ?_⟩
    intro d hd
    obtain ⟨v, hv, rfl⟩ := List.mem_map.mp hd
    obtain ⟨user, hu, rfl⟩ := List.mem_map.mp hv
    rw [hall user hu]
  rw [hnews] at hsends
  refine ⟨_, ChatTurn.issues hsends.sent hsends.answered hsends.outbox
    (sendMsgs_conns _ _ x.newRef) hsends.userList ?_ ?_ ?_⟩
  · intro d hd
    rw [List.eq_of_mem_replicate hd]
    exact ⟨.keys _ .notice, rfl⟩
  · intro q t ho
    simp [Call.chatDue]
  · simp only [List.map_replicate, List.sum_replicate_nat, Call.chatCost, List.length_nil,
      Nat.zero_add]
    omega

/- A user of the list gets a frame from this process exactly if it has a
registered session here. -/
theorem ChatUser.writes_iff {user : User} (h : ChatUser w p u user) {x : Proc} (hw : WF w)
    (hws : ∀ t, x.ws t = (w.procs p).ws t) :
    x.Writes p user ↔ OpenSession w u p user.socketId := by
  refine ⟨?_, ?_⟩
  · rintro ⟨_, hsend, hopen⟩
    rw [hws] at hopen
    refine ⟨(mem_recordsOf.mp h.record).1, hopen, ?_⟩
    rw [h.entry hsend]
    exact Option.some_ne_none _
  · intro ho
    have hsend := h.known ho
    have hloc := (hw.users p _ user (h.entry hsend)).2
    refine ⟨hloc.1.2, hsend, ?_⟩
    rw [hws]
    exact ho.opened

/- A user with a registered session on another process is forwarded to. -/
theorem ChatUser.remote_iff {user : User} (h : ChatUser w p u user) (hw : WF w) {q : Pid}
    (ho : OpenSession w u q user.socketId) : isRemote p user = true ↔ q ≠ p := by
  obtain ⟨q', hown, happ⟩ := h.owner
  have hq := hw.owner q' q _ hown (own_of_ws ho.opened)
  subst hq
  simp only [isRemote, happ, decide_eq_true_eq]
  exact not_congr appInfo_injective.eq_iff

/- The entries a failed send removes are those of dead sessions. -/
theorem ChatUser.logged_out {user : User} (h : ChatUser w p u user) {x : Proc}
    (hx : UsersLeft w p x) (hws : ∀ t, x.ws t = (w.procs p).ws t) (hfails : ¬ x.Sendable user) :
    x.userList.get user.socketId = none ∨ (w.procs p).ws user.socketId ≠ some .opened := by
  by_cases hopen : (w.procs p).ws user.socketId = some .opened
  · left
    have hsend : ¬ user.websocket = true := by
      intro hsend
      refine hfails ⟨hsend, ?_⟩
      rw [hws]
      exact hopen
    have hunknown : (w.procs p).userList.get user.socketId = none := by
      by_contra hknown
      exact hsend (h.known ⟨(mem_recordsOf.mp h.record).1, hopen, hknown⟩)
    rcases hx user.socketId with heq | ⟨hnone, _⟩
    · rw [heq, hunknown]
    · exact hnone
  · exact Or.inr hopen

/- An open session of another process has one packet for each of its users in the list, a session
of this process none. -/
theorem forwarded_count (hw : WF w) {userList : List User} {notice : Notice}
    (hall : ∀ user ∈ userList, ChatUser w p u user) {t : Str} (ho : OpenSession w u q t) :
    ((userList.filter (isRemote p)).map (packetFor notice)).countP
        (fun packet => packet.socketId = t) =
      userList.countP fun user => decide (user.socketId = t) && decide (q ≠ p) := by
  rw [List.countP_map, List.countP_filter]
  apply List.countP_congr
  intro user hu
  by_cases ht : user.socketId = t
  · subst ht
    have hiff := (hall user hu).remote_iff hw ho
    simp [packetFor, hiff]
  · simp [packetFor, ht]

/- This process writes once for each user of its open session. -/
theorem written_count (hw : WF w) {userList : List User} {notice : Notice}
    (hall : ∀ user ∈ userList, ChatUser w p u user) {x : Proc}
    (hws : ∀ t, x.ws t = (w.procs p).ws t) {t : Str} (ho : OpenSession w u p t) :
    (framesFor t (Proc.noticesSent p notice userList x)).length =
      userList.countP fun user => user.socketId = t := by
  rw [noticesSent_length]
  apply List.countP_congr
  intro user hu
  by_cases ht : user.socketId = t
  · subst ht
    have hwrites := ((hall user hu).writes_iff hw hws).mpr ho
    simp [hwrites]
  · simp [ht]

/- A socket that is no open session of the user gets nothing. -/
theorem written_none (hw : WF w) {userList : List User} {notice : Notice}
    (hall : ∀ user ∈ userList, ChatUser w p u user) {x : Proc}
    (hws : ∀ t, x.ws t = (w.procs p).ws t) {t : Str} (hno : ¬ OpenSession w u p t) :
    framesFor t (Proc.noticesSent p notice userList x) = [] := by
  apply List.eq_nil_of_length_eq_zero
  rw [noticesSent_length]
  apply List.countP_eq_zero.mpr
  intro user hu hboth
  simp only [Bool.and_eq_true, decide_eq_true_eq] at hboth
  obtain ⟨rfl, hwrites⟩ := hboth
  exact hno (((hall user hu).writes_iff hw hws).mp hwrites)

/- Nobody is both logged out and forwarded to, so the list pays for both. -/
theorem sendAll_cost (n : ℕ) (userList : List User) (notice : Notice) (x : Proc) :
    (((userList.filter (x.fails p)).map Call.logoutDel).map (Call.chatCost n)).sum +
      ((userList.filter (isRemote p)).map (packetFor notice)).length ≤ 2 * userList.length := by
  have hsum : (((userList.filter (x.fails p)).map Call.logoutDel).map (Call.chatCost n)).sum =
      (userList.countP (x.fails p)) * 2 := by
    rw [List.map_map, List.countP_eq_length_filter]
    exact (congrArg List.sum List.map_const').trans List.sum_replicate_nat
  have hsplit := List.length_eq_countP_add_countP (isRemote p) (l := userList)
  have hfails : userList.countP (x.fails p) ≤
      userList.countP fun user => decide ¬ isRemote p user = true := by
    apply List.countP_mono_left
    intro user _ hf
    have hf : user.appInfo = appInfo p ∧ ¬ x.Sendable user := of_decide_eq_true hf
    simp [isRemote, hf.1]
  rw [hsum, List.length_map, ← List.countP_eq_length_filter]
  omega

/- The notice goes to every user of the list: written by this process, or
forwarded. A user that cannot be written to is logged out. -/
theorem ChatTurn.sendAll (hw : WF w) {userList : List User}
    (hall : ∀ user ∈ userList, ChatUser w p u user) {x : Proc} (hx : UsersLeft w p x)
    (hws : ∀ t, x.ws t = (w.procs p).ws t) {c : Call}
    (hdue : ∀ t, userList.countP (fun user => user.socketId = t) =
      c.chatDue u (w.recordsOf u).length t)
    (hrank : c.chatRank (w.recordsOf u).length = 1)
    (hcost : 2 * userList.length + 2 ≤ c.chatCost (w.recordsOf u).length) :
    ∃ news outs ws, ChatTurn w p u sender msg c x
      (x.sendAll p (sendMsgNotice sender.userId msg) userList) news outs ws := by
  have hspec := sendAll_spec p (sendMsgNotice sender.userId msg) userList x
  refine ⟨(userList.filter (x.fails p)).map .logoutDel,
    (userList.filter (isRemote p)).map (packetFor (sendMsgNotice sender.userId msg)),
    Proc.noticesSent p (sendMsgNotice sender.userId msg) userList x, hspec.sent, hspec.answered,
    hspec.outbox, hspec.ws, ?_, Notifies.sendAll p _ userList x, ?_, ?_, ?_, ?_, ?_, ?_⟩
  · intro t
    rw [hspec.userList t]
    by_cases ht : t ∈ (userList.filter (x.fails p)).map User.socketId
    · rw [if_pos ht]
      obtain ⟨user, hu, rfl⟩ := List.mem_map.mp ht
      obtain ⟨hmem, hfails⟩ := List.mem_filter.mp hu
      have hfails : user.appInfo = appInfo p ∧ ¬ x.Sendable user := of_decide_eq_true hfails
      rcases (hall user hmem).logged_out hx hws hfails.2 with hnone | hshut
      · exact Or.inl hnone.symm
      · exact Or.inr ⟨rfl, hshut⟩
    · rw [if_neg ht]
      exact Or.inl rfl
  · intro d hd
    obtain ⟨user, _, rfl⟩ := List.mem_map.mp hd
    exact ⟨.logout user, hrank.symm⟩
  · intro packet hp
    obtain ⟨user, hu, rfl⟩ := List.mem_map.mp hp
    obtain ⟨hmem, hremote⟩ := List.mem_filter.mp hu
    have hremote : user.appInfo ≠ appInfo p := of_decide_eq_true hremote
    obtain ⟨q, hown, happ⟩ := (hall user hmem).owner
    refine ⟨rfl, (mem_recordsOf.mp (hall user hmem).record).1, q, ?_, happ, hown⟩
    rintro rfl
    exact hremote happ
  · intro a ha
    exact noticesSent_carries ha
  · intro q t ho
    have hnone : (((userList.filter (x.fails p)).map Call.logoutDel).map
        (Call.chatDue u (w.recordsOf u).length t)).sum = 0 := by
      apply List.sum_eq_zero_iff_forall_eq_nat.mpr
      intro n hn
      obtain ⟨d, hd, rfl⟩ := List.mem_map.mp hn
      obtain ⟨user, _, rfl⟩ := List.mem_map.mp hd
      rfl
    rw [hnone, forwarded_count hw hall ho, ← hdue t]
    by_cases hq : q = p
    · subst hq
      rw [if_pos rfl, written_count hw hall hws ho]
      simp
    · simp [hq]
  · intro t hno
    exact written_none hw hall hws hno
  · have hboth := sendAll_cost (p := p) (w.recordsOf u).length userList
      (sendMsgNotice sender.userId msg) x
    omega

/- The lookup of a `NoticeSender.send` is done. -/
theorem ChatTurn.sends (hw : WF w) (hsafe : LookupSafe w p u) {key : Str} {found : List User}
    (hkey : key ∈ w.recordsOf u) (hfound : ∀ user ∈ found, ChatUser w p u user) {rec : User}
    (hrec : ChatRecord w u key rec) {x : Proc} (hx : UsersLeft w p x)
    (hws : ∀ t, x.ws t = (w.procs p).ws t) :
    ∃ news outs ws, ChatTurn w p u sender msg
      (.lookupHash key [] found (.notice (sendMsgNotice sender.userId msg) .nobody)) x
      (x.onReply p (.lookupHash key [] found (.notice (sendMsgNotice sender.userId msg) .nobody))
        (.hash rec.record)) news outs ws := by
  obtain ⟨huser, hs⟩ := ChatUser.read hw hsafe hx hrec hkey
  have hall : ∀ user ∈ found ++ [x.getUserWithRedis rec.record], ChatUser w p u user := by
    intro user hu
    rcases List.mem_append.mp hu with hu | hu
    · exact hfound user hu
    · rw [List.mem_singleton.mp hu]
      exact huser
  have hx' : UsersLeft w p x.newRef := hx
  have hws' : ∀ t, x.newRef.ws t = (w.procs p).ws t := hws
  have hcost : 2 * (found ++ [x.getUserWithRedis rec.record]).length + 2 ≤
      2 * (0 + 1) + 2 * (found.length + (0 + 1)) := by
    rw [List.length_append, List.length_singleton]
    omega
  have hturn : ∃ news outs ws, ChatTurn w p u sender msg
      (.lookupHash key [] found (.notice (sendMsgNotice sender.userId msg) .nobody)) x.newRef
      (x.newRef.sendAll p (sendMsgNotice sender.userId msg)
        (found ++ [x.getUserWithRedis rec.record])) news outs ws :=
    ChatTurn.sendAll hw hall hx' hws' (fun t => count_read hrec hs found [] t) rfl hcost
  obtain ⟨news, outs, ws, hturn⟩ := hturn
  exact ⟨news, outs, ws, ⟨hturn.sent, hturn.answered, hturn.outbox, hturn.sockets, hturn.users,
    hturn.noticed, hturn.calls, hturn.packets, hturn.carries, hturn.balance, hturn.shut,
    hturn.cost⟩⟩

theorem ChatTurn.loggedOut (user : User) (r : Store.Reply) (x : Proc) :
    ChatTurn w p u sender msg (.logoutDel user) x (x.onReply p (.logoutDel user) r) [] [] [] := by
  refine ChatTurn.issues (List.append_nil _).symm rfl rfl rfl rfl ?_ (fun _ _ _ => rfl) (le_refl _)
  intro d hd
  cases hd

/-- What the callback of any call of the message does. -/
theorem ChatCall.turn (hw : WF w) (hsafe : LookupSafe w p u) (hu : Glob.plain u) {c : Call}
    (hc : ChatCall w p u sender msg c) {r : Store.Reply} (hr : ChatReply w u c r) {x : Proc}
    (hx : UsersLeft w p x) (hws : ∀ t, x.ws t = (w.procs p).ws t) :
    ∃ news outs ws, ChatTurn w p u sender msg c x (x.onReply p c r) news outs ws := by
  cases hc with
  | keys next chat =>
    obtain ⟨order, rfl, hperm⟩ := hr
    obtain ⟨news, hturn⟩ := ChatTurn.keys hu chat order hperm x
    exact ⟨news, [], [], hturn⟩
  | hash key rest found next chat keys users =>
    obtain ⟨rec, rfl, hrec⟩ := hr
    cases rest with
    | cons key' rest =>
      obtain ⟨news, hturn⟩ := ChatTurn.hash hw hsafe chat keys users hrec hx
      exact ⟨news, [], [], hturn⟩
    | nil =>
      have hkey := keys key (List.mem_cons_self ..)
      cases chat with
      | first =>
        obtain ⟨news, hturn⟩ := ChatTurn.lookedUp hw hsafe hkey users hrec hx
        exact ⟨news, [], [], hturn⟩
      | notice => exact ChatTurn.sends hw hsafe hkey users hrec hx hws
  | logout user => exact ⟨[], [], [], ChatTurn.loggedOut user r x⟩

/-! ### One step of the servers -/

/- The message is being handled on process `p`, since `w`. -/
structure Chatting (w : World) (p : Pid) (u : Str) (sender : User) (msg : JsVal) (v : World) :
    Prop where
  sockets : ∀ q t, (v.procs q).ws t = (w.procs q).ws t
  users : UsersLeft w p (v.procs p)
  others : ∀ q, q ≠ p → (v.procs q).userList = (w.procs q).userList ∧ (v.procs q).calls = [] ∧
    (v.procs q).outbox = []
  calls : ∀ c ∈ (v.procs p).calls, ChatCall w p u sender msg c
  replies : ∀ c r, (c, r) ∈ (v.procs p).answered → ChatReply w u c r
  rounds : Queue.Rounds (Call.chatRank (w.recordsOf u).length) (v.procs p).calls
  db : v.db = w.db ∨ ((∀ c ∈ (v.procs p).calls, c.chatRank (w.recordsOf u).length ≤ 1) ∧
    ∀ c ∈ (v.procs p).sent, c.chatRank (w.recordsOf u).length = 0)
  packets : ∀ packet ∈ (v.procs p).outbox, ChatPacket w p u sender msg packet
  balance : ∀ q t, OpenSession w u q t → ∃ n, Receives w v (sendMsgNotice sender.userId msg) q t n ∧
    n + ((v.procs p).calls.map (Call.chatDue u (w.recordsOf u).length t)).sum +
      (v.procs p).outbox.countP (fun packet => packet.socketId = t) = (w.recordsOf u).length
  shut : ∀ q t, ¬ OpenSession w u q t → Receives w v (sendMsgNotice sender.userId msg) q t 0

/- A bound for the steps the servers can still take. -/
def World.chatWork (w v : World) (p : Pid) (u : Str) : ℕ :=
  ((v.procs p).sent.map (Call.chatCost (w.recordsOf u).length)).sum +
    ((v.procs p).answered.map fun cr => cr.1.chatCost (w.recordsOf u).length - 1).sum +
    (v.procs p).outbox.length

theorem Receives.congr {w v v' : World} {notice : Notice} {q : Pid} {t : Str} {n : ℕ}
    (h : Receives w v notice q t n) (hv : (v'.procs q).noticed t = (v.procs q).noticed t) :
    Receives w v' notice q t n := by
  obtain ⟨news, hnews, hrest⟩ := h
  exact ⟨news, hv.trans hnews, hrest⟩

theorem ChatCall.cost_pos {c : Call} (hc : ChatCall w p u sender msg c) :
    2 ≤ c.chatCost (w.recordsOf u).length := by
  cases hc with
  | keys next chat =>
    cases chat with
    | first =>
      simp only [Call.chatCost]
      omega
    | notice =>
      simp only [Call.chatCost]
      omega
  | hash key rest found next chat =>
    cases chat with
    | first =>
      simp only [Call.chatCost]
      omega
    | notice =>
      simp only [Call.chatCost]
      omega
  | logout => exact le_refl _

section

variable {v v' : World} {e : Event} {q : Pid} {c : Call} {r : Store.Reply}

/- What Redis answers to the call it takes next. -/
theorem Chatting.executed_reply (hc : Chatting w p u sender msg v) (hw : WF w)
    (hsafe : LookupSafe w p u) (h : Executed v v' e p c r) (he : e.internal = true) :
    ChatReply w u c r ∧ (c.chatRank (w.recordsOf u).length ≠ 0 → v'.db = w.db) := by
  have hsent : c ∈ (v.procs p).sent := h.mem_sent
  obtain ⟨order, rfl, hdb, hr⟩ : ∃ order, e = .exec p (.done order) ∧ v'.db = (c.txn.run v.db).1 ∧
      (c.txn.run v.db).2.inOrder order = some r := by
    rcases h.db with hdone | ⟨message, rfl, _⟩
    · exact hdone
    · cases he
  have hsame : c.chatRank (w.recordsOf u).length ≠ 0 → v.db = w.db := by
    intro hrank
    rcases hc.db with hdb | ⟨_, hzero⟩
    · exact hdb
    · exact absurd (hzero c hsent) hrank
  cases hc.calls c h.mem_calls with
  | keys next chat =>
    have hdb₀ : v.db = w.db := hsame (by cases chat <;> simp [Call.chatRank])
    rw [hdb₀] at hdb hr
    obtain ⟨hr', hperm⟩ := Store.inOrder_array order _ r hr
    exact ⟨⟨order, hr', hperm⟩, fun _ => hdb⟩
  | hash key rest found next chat keys users =>
    have hdb₀ : v.db = w.db := hsame (by cases chat <;> simp [Call.chatRank])
    rw [hdb₀] at hdb hr
    obtain ⟨rec, hrec⟩ := recordsOf_record hw hsafe (keys key (List.mem_cons_self ..))
    refine ⟨⟨rec, ?_, hrec⟩, fun _ => hdb⟩
    have hrun : ((Call.lookupHash key rest found next).txn.run w.db).2 = .hash rec.record := by
      show Store.hgetall key w.db = _
      simp only [Store.hgetall, hrec.stored]
    rw [hrun] at hr
    exact (Option.some.inj hr).symm
  | logout user => exact ⟨trivial, fun hrank => absurd rfl hrank⟩

theorem Chatting.executed (hc : Chatting w p u sender msg v) (hw : WF w) (hsafe : LookupSafe w p u)
    (h : Executed v v' e q c r) (he : e.internal = true) :
    Chatting w p u sender msg v' ∧ w.chatWork v' p u < w.chatWork v p u := by
  have hq : q = p := by
    by_contra hne
    have hmem := h.mem_calls
    rw [(hc.others q hne).2.1] at hmem
    cases hmem
  subst hq
  obtain ⟨hreply, hdb⟩ := hc.executed_reply hw hsafe h he
  have hconns : ∀ p', (v'.procs p').conns = (v.procs p').conns := by
    intro p'
    by_cases hp : p' = q
    · rw [hp, h.conns]
    · rw [h.others p' hp]
  have hnoticed : ∀ p' t, (v'.procs p').noticed t = (v.procs p').noticed t := by
    intro p' t
    rw [Proc.noticed, hconns]
    rfl
  refine ⟨⟨?_, ?_, ?_, ?_, ?_, ?_, ?_, ?_, ?_, ?_⟩, ?_⟩
  · intro p' t
    rw [h.ws]
    exact hc.sockets p' t
  · unfold UsersLeft
    rw [h.userList]
    exact hc.users
  · intro p' hp
    rw [h.others p' hp]
    exact hc.others p' hp
  · rw [h.calls]
    exact hc.calls
  · intro c' r' hm
    rcases h.mem_answered q c' r' hm with hm | ⟨_, rfl, rfl⟩
    · exact hc.replies c' r' hm
    · exact hreply
  · rw [h.calls]
    exact hc.rounds
  · by_cases hrank : c.chatRank (w.recordsOf u).length = 0
    · -- a `DEL`: no lookup is behind it
      right
      rw [h.calls]
      have hrounds := hc.rounds
      have hsplit : (v.procs q).calls = (v.procs q).answered.map Prod.fst ++ c :: (v'.procs q).sent := by
        rw [Proc.calls, h.sent]
      refine ⟨?_, ?_⟩
      · intro d hd
        have hle := hrounds.close d hd c h.mem_calls
        omega
      · intro d hd
        rw [hsplit] at hrounds
        exact hrounds.after_zero hrank d (List.mem_cons_of_mem _ hd)
    · exact Or.inl (hdb hrank)
  · rw [h.outbox]
    exact hc.packets
  · intro p' t ho
    obtain ⟨n, hrec, hsum⟩ := hc.balance p' t ho
    refine ⟨n, hrec.congr (hnoticed p' t), ?_⟩
    rw [h.calls, h.outbox]
    exact hsum
  · intro p' t hno
    exact (hc.shut p' t hno).congr (hnoticed p' t)
  · have hcost := (hc.calls c h.mem_calls).cost_pos
    simp only [World.chatWork, h.sent, h.answered, h.outbox, List.map_cons, List.sum_cons,
      List.map_append, List.map_nil, List.sum_append_nat, List.sum_nil]
    omega

/- The callback of the oldest call has run, and only its process has changed. -/
structure ChatReplied (w : World) (p : Pid) (u : Str) (sender : User) (msg : JsVal) (v z : World)
    (c : Call) (r : Store.Reply) (rest : List (Call × Store.Reply)) (news : List Call)
    (outs : List Packet) (ws : List (User × Frame)) : Prop where
  before : (v.procs p).answered = (c, r) :: rest
  turn : ChatTurn w p u sender msg c { v.procs p with answered := rest } (z.procs p) news outs ws
  other : ∀ q, q ≠ p → z.procs q = v.procs q
  db : z.db = v.db

section

variable {z : World} {rest : List (Call × Store.Reply)} {news : List Call} {outs : List Packet}
  {ws : List (User × Frame)}

theorem ChatReplied.calls_before (h : ChatReplied w p u sender msg v z c r rest news outs ws) :
    (v.procs p).calls = c :: (rest.map Prod.fst ++ (v.procs p).sent) := by
  rw [Proc.calls, h.before]
  rfl

theorem ChatReplied.calls_after (h : ChatReplied w p u sender msg v z c r rest news outs ws) :
    (z.procs p).calls = (rest.map Prod.fst ++ (v.procs p).sent) ++ news := by
  rw [Proc.calls, h.turn.sent, h.turn.answered, List.append_assoc]

/- What is still in flight was so before or is new. -/
theorem ChatReplied.mem_calls (h : ChatReplied w p u sender msg v z c r rest news outs ws) {d : Call}
    (hd : d ∈ (z.procs p).calls) : d ∈ (v.procs p).calls ∨ d ∈ news := by
  rw [h.calls_after] at hd
  rcases List.mem_append.mp hd with hd | hd
  · rw [h.calls_before]
    exact Or.inl (List.mem_cons_of_mem _ hd)
  · exact Or.inr hd

theorem Chatting.reply_turn (hc : Chatting w p u sender msg v) (hw : WF w)
    (hsafe : LookupSafe w p u) (hu : Glob.plain u) (hs : step v (.reply q) = some z) :
    ∃ c r rest news outs ws, ChatReplied w p u sender msg v z c r rest news outs ws := by
  obtain ⟨c, r, rest, hans, rfl⟩ := step_reply hs
  have hmem : c ∈ (v.procs q).calls := by
    rw [Proc.calls, hans]
    exact List.mem_cons_self ..
  have hq : q = p := by
    by_contra hne
    rw [(hc.others q hne).2.1] at hmem
    cases hmem
  subst hq
  obtain ⟨news, outs, ws, hturn⟩ := (hc.calls c hmem).turn hw hsafe hu
    (hc.replies c r (by rw [hans]; exact List.mem_cons_self ..))
    (x := { v.procs q with answered := rest }) hc.users (hc.sockets q)
  refine ⟨c, r, rest, news, outs, ws, hans, ?_, fun p' hp => setProc_ne v q p' _ hp, rfl⟩
  rw [setProc_self]
  exact hturn

/- Once a `DEL` has been executed only `DEL`s are sent. -/
theorem Chatting.replied_db (hc : Chatting w p u sender msg v)
    (h : ChatReplied w p u sender msg v z c r rest news outs ws) :
    z.db = w.db ∨ ((∀ d ∈ (z.procs p).calls, d.chatRank (w.recordsOf u).length ≤ 1) ∧
      ∀ d ∈ (z.procs p).sent, d.chatRank (w.recordsOf u).length = 0) := by
  rcases hc.db with hdb | ⟨hle, hzero⟩
  · exact Or.inl (h.db.trans hdb)
  · have hone := hle c (by rw [h.calls_before]; exact List.mem_cons_self ..)
    have hnews : ∀ d ∈ news, d.chatRank (w.recordsOf u).length = 0 := by
      intro d hd
      have hrank := (h.turn.calls d hd).2
      omega
    refine Or.inr ⟨?_, ?_⟩
    · intro d hd
      rcases h.mem_calls hd with hd | hd
      · exact hle d hd
      · rw [hnews d hd]
        exact Nat.zero_le 1
    · intro d hd
      rw [h.turn.sent] at hd
      rcases List.mem_append.mp hd with hd | hd
      · exact hzero d hd
      · exact hnews d hd

/- What a callback writes or forwards is no longer due. -/
theorem Chatting.replied_balance (hc : Chatting w p u sender msg v)
    (h : ChatReplied w p u sender msg v z c r rest news outs ws) (q : Pid) (t : Str)
    (ho : OpenSession w u q t) :
    ∃ n, Receives w z (sendMsgNotice sender.userId msg) q t n ∧
      n + ((z.procs p).calls.map (Call.chatDue u (w.recordsOf u).length t)).sum +
        (z.procs p).outbox.countP (fun packet => packet.socketId = t) = (w.recordsOf u).length := by
  obtain ⟨n, hrec, hsum⟩ := hc.balance q t ho
  have hturned := h.turn.balance q t ho
  have hout : (z.procs p).outbox = (v.procs p).outbox ++ outs := h.turn.outbox
  rw [h.calls_before] at hsum
  rw [h.calls_after, hout]
  simp only [List.map_cons, List.sum_cons, List.map_append, List.sum_append_nat,
    List.countP_append] at hsum ⊢
  by_cases hp : q = p
  · subst hp
    rw [if_pos rfl] at hturned
    refine ⟨n + (framesFor t ws).length, hrec.more (h.turn.noticed t) ?_, by omega⟩
    intro frame hf
    obtain ⟨a, ha, rfl⟩ := List.mem_map.mp hf
    exact h.turn.carries a (List.mem_filter.mp ha).1
  · rw [if_neg hp] at hturned
    refine ⟨n, hrec.congr ?_, by omega⟩
    rw [h.other q hp]

theorem Chatting.replied (hc : Chatting w p u sender msg v)
    (h : ChatReplied w p u sender msg v z c r rest news outs ws) :
    Chatting w p u sender msg z ∧ w.chatWork z p u < w.chatWork v p u := by
  refine ⟨⟨?_, ?_, ?_, ?_, ?_, ?_, hc.replied_db h, ?_, hc.replied_balance h, ?_⟩, ?_⟩
  · intro q t
    by_cases hp : q = p
    · subst hp
      rw [h.turn.sockets t]
      exact hc.sockets q t
    · rw [h.other q hp]
      exact hc.sockets q t
  · intro t
    rcases h.turn.users t with heq | hgone
    · rw [heq]
      exact hc.users t
    · exact Or.inr hgone
  · intro q hp
    rw [h.other q hp]
    exact hc.others q hp
  · intro d hd
    rcases h.mem_calls hd with hd | hd
    · exact hc.calls d hd
    · exact (h.turn.calls d hd).1
  · intro c' r' hm
    rw [h.turn.answered] at hm
    refine hc.replies c' r' ?_
    rw [h.before]
    exact List.mem_cons_of_mem _ hm
  · have hrounds := hc.rounds
    rw [h.calls_before] at hrounds
    rw [h.calls_after]
    exact hrounds.serve fun d hd => (h.turn.calls d hd).2
  · intro packet hp
    rw [h.turn.outbox] at hp
    rcases List.mem_append.mp hp with hp | hp
    · exact hc.packets packet hp
    · exact h.turn.packets packet hp
  · intro q t hno
    refine (hc.shut q t hno).congr ?_
    by_cases hp : q = p
    · subst hp
      rw [h.turn.noticed t, h.turn.shut t hno, List.append_nil]
      rfl
    · rw [h.other q hp]
  · have hcost := h.turn.cost
    have hsent : (z.procs p).sent = (v.procs p).sent ++ news := h.turn.sent
    have hout : (z.procs p).outbox = (v.procs p).outbox ++ outs := h.turn.outbox
    have hanswered : (z.procs p).answered = rest := h.turn.answered
    simp only [World.chatWork, hsent, hanswered, hout, h.before, List.map_cons, List.sum_cons,
      List.map_append, List.sum_append_nat, List.length_append]
    omega

end

/- A delivered notice that does not kick touches only what is written. -/
theorem onPacket_sockets (packet : Packet) (x : Proc) (hkick : packet.notice.isKick = false)
    (t : Str) : (x.onPacket packet).ws t = x.ws t := by
  unfold Proc.onPacket
  split
  · rfl
  · next user hu =>
    dsimp only
    split
    · rfl
    · next z hsend =>
      rw [hkick]
      exact wsSend_ws (x.bumpNotice user) z _ _ hsend t

/- What it writes. -/
theorem packetNotices_frames (hw : WF w) (packet : Packet) {x : Proc}
    (husers : x.userList = (w.procs q).userList) (hws : ∀ t, x.ws t = (w.procs q).ws t) :
    (∀ a ∈ x.packetNotices packet, a.2.carries packet.notice = true) ∧
    (∀ t, t ≠ packet.socketId → framesFor t (x.packetNotices packet) = []) ∧
    ((w.procs q).userList.get packet.socketId ≠ none →
      (w.procs q).ws packet.socketId = some .opened →
      (framesFor packet.socketId (x.packetNotices packet)).length = 1) ∧
    (framesFor packet.socketId (x.packetNotices packet) ≠ [] →
      (w.procs q).userList.get packet.socketId ≠ none ∧
      (w.procs q).ws packet.socketId = some .opened) := by
  have hget : x.getUserWithSocket packet.socketId = (w.procs q).userList.get packet.socketId := by
    rw [Proc.getUserWithSocket, husers]
  unfold Proc.packetNotices
  rw [hget]
  cases hu : (w.procs q).userList.get packet.socketId with
  | none =>
    dsimp only
    exact ⟨List.forall_mem_nil _, fun t _ => rfl, fun h => absurd rfl h, fun h => absurd rfl h⟩
  | some user =>
    have hs := (hw.users q _ user hu).1
    dsimp only
    rw [hws, hs]
    by_cases hopen : (w.procs q).ws packet.socketId = some .opened
    · rw [if_pos hopen]
      refine ⟨?_, ?_, ?_, ?_⟩
      · intro a ha
        rw [List.mem_singleton.mp ha]
        simp [Frame.carries]
      · intro t ht
        have ht' : user.socketId ≠ t := by
          rw [hs]
          exact fun heq => ht heq.symm
        simp [framesFor, ht']
      · intro _ _
        simp [framesFor, hs]
      · intro _
        exact ⟨Option.some_ne_none _, hopen⟩
    · rw [if_neg hopen]
      exact ⟨List.forall_mem_nil _, fun t _ => rfl, fun _ h => absurd h hopen, fun h => absurd rfl h⟩

/- A packet of `q` has been handled by another process `r`. -/
structure Passed (v z : World) (q r : Pid) (packet : Packet) : Prop where
  source : ∃ outbox, z.procs q = { v.procs q with outbox := outbox } ∧
    (packet :: outbox).Perm (v.procs q).outbox
  target : z.procs r = (v.procs r).onPacket packet
  other : ∀ p', p' ≠ q → p' ≠ r → z.procs p' = v.procs p'
  db : z.db = v.db

theorem step_passed {z : World} {n : ℕ} {s : Pid} (hs : step v (.deliver q n s) = some z) :
    ∃ packet ∈ (v.procs q).outbox, packet.url = appInfo s ∧ (s ≠ q → Passed v z q s packet) := by
  obtain ⟨packet, hget, hurl, rfl⟩ := step_deliver hs
  refine ⟨packet, List.mem_of_getElem? hget, hurl, fun hne => ⟨?_, ?_, ?_, rfl⟩⟩
  · obtain ⟨hn, hgetn⟩ := List.getElem?_eq_some_iff.mp hget
    refine ⟨(v.procs q).outbox.eraseIdx n, ?_, ?_⟩
    · rw [setProc_ne _ s q _ fun heq => hne heq.symm, setProc_self]
    · rw [← hgetn]
      exact List.getElem_cons_eraseIdx_perm hn
  · rw [setProc_self, setProc_ne v q s _ hne]
  · intro p' hq hr
    rw [setProc_ne _ s p' _ hr, setProc_ne _ q p' _ hq]

section

variable {z : World} {s : Pid} {packet : Packet}

theorem Passed.noticed (h : Passed v z q s packet) (t : Str) : (z.procs s).noticed t =
    (v.procs s).noticed t ++ framesFor t ((v.procs s).packetNotices packet) := by
  rw [h.target]
  exact Notifies.onPacket packet (v.procs s) t

theorem Passed.noticed_other (h : Passed v z q s packet) {p' : Pid} (hp : p' ≠ s) (t : Str) :
    (z.procs p').noticed t = (v.procs p').noticed t := by
  by_cases hq : p' = q
  · obtain ⟨outbox, hsource, -⟩ := h.source
    rw [hq, hsource]
    rfl
  · rw [h.other p' hq hp]

/- What is written is no longer on its way. -/
theorem Chatting.passed_balance (hc : Chatting w p u sender msg v) (hw : WF w) (hs : s ≠ p)
    (h : Passed v z p s packet) (hpacket : ChatPacket w p u sender msg packet)
    (hown : w.own s packet.socketId) (q : Pid) (t : Str) (ho : OpenSession w u q t) :
    ∃ n, Receives w z (sendMsgNotice sender.userId msg) q t n ∧
      n + ((z.procs p).calls.map (Call.chatDue u (w.recordsOf u).length t)).sum +
        (z.procs p).outbox.countP (fun packet => packet.socketId = t) = (w.recordsOf u).length := by
  obtain ⟨outbox, hsource, hperm⟩ := h.source
  obtain ⟨hcarries, hothers, hone, -⟩ :=
    packetNotices_frames hw packet (hc.others s hs).1 (hc.sockets s)
  obtain ⟨m, hrec, hsum⟩ := hc.balance q t ho
  have hcount := hperm.countP_eq (fun packet => packet.socketId = t)
  rw [List.countP_cons] at hcount
  have hcalls : (z.procs p).calls = (v.procs p).calls := by
    rw [hsource]
    rfl
  have hout : (z.procs p).outbox = outbox := by rw [hsource]
  rw [hcalls, hout]
  by_cases ht : t = packet.socketId
  · subst ht
    have hq : q = s := hw.owner q s _ (own_of_ws ho.opened) hown
    subst hq
    refine ⟨m + 1, ?_, ?_⟩
    · have hframes : ∀ frame ∈ framesFor packet.socketId ((v.procs q).packetNotices packet),
          frame.carries (sendMsgNotice sender.userId msg) = true := by
        intro frame hf
        obtain ⟨a, ha, rfl⟩ := List.mem_map.mp hf
        rw [← hpacket.notice]
        exact hcarries a (List.mem_filter.mp ha).1
      have hmore := hrec.more (h.noticed packet.socketId) hframes
      rwa [hone ho.known ho.opened] at hmore
    · simp only [decide_true, if_true] at hcount
      omega
  · have ht' : packet.socketId ≠ t := fun heq => ht heq.symm
    refine ⟨m, hrec.congr ?_, ?_⟩
    · by_cases hq : q = s
      · subst hq
        rw [h.noticed t, hothers t ht, List.append_nil]
      · exact h.noticed_other hq t
    · simp only [ht', decide_false, Bool.false_eq_true, if_false] at hcount
      omega

/- Nobody else is written to. -/
theorem Chatting.passed_shut (hc : Chatting w p u sender msg v) (hw : WF w) (hs : s ≠ p)
    (h : Passed v z p s packet) (hpacket : ChatPacket w p u sender msg packet) (q : Pid) (t : Str)
    (hno : ¬ OpenSession w u q t) : Receives w z (sendMsgNotice sender.userId msg) q t 0 := by
  refine (hc.shut q t hno).congr ?_
  by_cases hq : q = s
  · subst hq
    obtain ⟨-, hothers, -, hopened⟩ :=
      packetNotices_frames hw packet (hc.others q hs).1 (hc.sockets q)
    have hnil : framesFor t ((v.procs q).packetNotices packet) = [] := by
      by_cases ht : t = packet.socketId
      · subst ht
        by_contra hne
        obtain ⟨hknown, hopen⟩ := hopened hne
        exact hno ⟨hpacket.recorded, hopen, hknown⟩
      · exact hothers t ht
    rw [h.noticed t, hnil, List.append_nil]
  · exact h.noticed_other hq t

theorem Chatting.passed (hc : Chatting w p u sender msg v) (hw : WF w) (hs : s ≠ p)
    (h : Passed v z p s packet) (hpacket : ChatPacket w p u sender msg packet)
    (hown : w.own s packet.socketId) :
    Chatting w p u sender msg z ∧ w.chatWork z p u < w.chatWork v p u := by
  obtain ⟨outbox, hsource, hperm⟩ := h.source
  have hemits := Emits.onPacket (v.procs s) packet
  obtain ⟨husers, hcalls, hout⟩ := hc.others s hs
  have hkick : packet.notice.isKick = false := by
    rw [hpacket.notice]
    rfl
  refine ⟨⟨?_, ?_, ?_, ?_, ?_, ?_, ?_, ?_, hc.passed_balance hw hs h hpacket hown,
    hc.passed_shut hw hs h hpacket⟩, ?_⟩
  · intro q t
    by_cases hq : q = s
    · rw [hq, h.target, onPacket_sockets packet _ hkick]
      exact hc.sockets s t
    · by_cases hp : q = p
      · rw [hp, hsource]
        exact hc.sockets p t
      · rw [h.other q hp hq]
        exact hc.sockets q t
  · rw [hsource]
    exact hc.users
  · intro q hp
    by_cases hq : q = s
    · rw [hq, h.target, hemits.userList, hemits.outbox]
      refine ⟨husers, ?_, hout⟩
      rw [← hcalls, Proc.calls, hemits.sent, hemits.answered, List.append_nil]
      rfl
    · rw [h.other q hp hq]
      exact hc.others q hp
  · rw [hsource]
    exact hc.calls
  · rw [hsource]
    exact hc.replies
  · rw [hsource]
    exact hc.rounds
  · rw [h.db, hsource]
    exact hc.db
  · intro packet' hp
    rw [hsource] at hp
    exact hc.packets packet' (hperm.mem_iff.mp (List.mem_cons_of_mem _ hp))
  · have hlength := hperm.length_eq
    rw [List.length_cons] at hlength
    simp only [World.chatWork, hsource]
    omega

theorem Chatting.delivered (hc : Chatting w p u sender msg v) (hw : WF w) {n : ℕ}
    (hs : step v (.deliver q n s) = some z) :
    Chatting w p u sender msg z ∧ w.chatWork z p u < w.chatWork v p u := by
  obtain ⟨packet, hmem, hurl, hpassed⟩ := step_passed hs
  have hq : q = p := by
    by_contra hne
    rw [(hc.others q hne).2.2] at hmem
    cases hmem
  subst hq
  have hpacket := hc.packets packet hmem
  obtain ⟨s', hne, hurl', hown⟩ := hpacket.owner
  have heq : s = s' := appInfo_injective (hurl.symm.trans hurl')
  subst heq
  exact hc.passed hw hne (hpassed hne) hpacket hown

end

theorem Chatting.step (hc : Chatting w p u sender msg v) (hw : WF w) (hsafe : LookupSafe w p u)
    (hu : Glob.plain u) (he : e.internal = true) (hs : NodeServer.step v e = some v') :
    Chatting w p u sender msg v' ∧ w.chatWork v' p u < w.chatWork v p u := by
  cases e with
  | exec q outcome =>
    obtain ⟨c, r, h⟩ := exec_cases v v' q outcome hs
    exact hc.executed hw hsafe h he
  | reply q =>
    obtain ⟨c, r, rest, news, outs, ws, h⟩ := hc.reply_turn hw hsafe hu hs
    exact hc.replied h
  | deliver q n r => exact hc.delivered hw hs
  | _ => cases he

/- Nothing is in flight. -/
def AtRest (v : World) : Prop := ∀ q, (v.procs q).calls = [] ∧ (v.procs q).outbox = []

/- Until then the servers can do something. -/
theorem Chatting.progress (hc : Chatting w p u sender msg v) :
    AtRest v ∨ ∃ e v', e.internal = true ∧ NodeServer.step v e = some v' := by
  cases hans : (v.procs p).answered with
  | cons cr rest =>
    obtain ⟨v', hv'⟩ := reply_enabled hans
    exact Or.inr ⟨.reply p, v', rfl, hv'⟩
  | nil =>
    cases hsent : (v.procs p).sent with
    | cons c rest =>
      obtain ⟨order, v', hv'⟩ := exec_enabled hsent
      exact Or.inr ⟨.exec p (.done order), v', rfl, hv'⟩
    | nil =>
      cases hout : (v.procs p).outbox with
      | cons packet rest =>
        right
        obtain ⟨q, _, hurl, _⟩ := (hc.packets packet (by rw [hout]; exact List.mem_cons_self ..)).owner
        have henabled : (NodeServer.step v (.deliver p 0 q)).isSome = true := by
          simp [NodeServer.step, inputOf, hout, hurl]
        obtain ⟨v', hv'⟩ := Option.isSome_iff_exists.mp henabled
        exact ⟨.deliver p 0 q, v', rfl, hv'⟩
      | nil =>
        left
        intro q
        by_cases hq : q = p
        · subst hq
          exact ⟨by rw [Proc.calls, hans, hsent]; rfl, hout⟩
        · exact (hc.others q hq).2

end

/-! ### The request -/

/- A `SendMsg` request of a logged-in user to `u`. -/
structure ChatRequest (w : World) (p : Pid) (s : Str) (req : Request) (u : Str) (sender : User) :
    Prop where
  arrives : (w.procs p).ws s = some .opened ∨ (w.procs p).ws s = some .closing
  routed : getRouterByName req.route = some (.handler .sendMsg)
  logged : (w.procs p).userList.get s = some sender
  target : req.toUserId = some u

theorem sendRespond_sockets (x : Proc) (h : Handler) (t : Str) :
    (x.sendRespond h false).ws t = x.ws t := by
  by_cases hopen : x.ws h.socketId = some .opened
  · rw [sendRespond_open x h hopen]
    simp only [Proc.ws, Proc.settle, Proc.setConn, Table.get_modify]
    by_cases ht : t = h.socketId
    · simp only [ht, if_true, Option.map_map]
      rfl
    · simp only [ht, if_false]
  · rw [sendRespond_shut x h false hopen]

theorem ChatRequest.step {s : Str} {req : Request} (h : ChatRequest w p s req u sender) (now : ℕ) :
    NodeServer.step w.alone (.message p s req now) = some (w.alone.setProc p
      (((w.procs p).alone.issue (.lookupKeys u (.sendMsg sender req.msg))).sendRespond
        ((w.procs p).alone.getBaseRespond s req.id .sendMsg) false)) := by
  have hlogged : (w.procs p).alone.getUserWithSocket s = some sender := h.logged
  rw [message_step w.alone p s req now h.arrives]
  simp only [react, Proc.onMessage, h.routed, Proc.handle]
  rw [show (w.alone.procs p) = (w.procs p).alone from rfl, hlogged, h.target]
  rfl

theorem ChatRequest.chatting {s : Str} {req : Request} (h : ChatRequest w p s req u sender)
    (now : ℕ) {m : World} (hm : NodeServer.step w.alone (.message p s req now) = some m) :
    Chatting w p u sender req.msg m := by
  rw [h.step now] at hm
  cases hm
  have hself := setProc_self w.alone p
    (((w.procs p).alone.issue (.lookupKeys u (.sendMsg sender req.msg))).sendRespond
      ((w.procs p).alone.getBaseRespond s req.id .sendMsg) false)
  have hother := fun q hq => setProc_ne w.alone p q
    (((w.procs p).alone.issue (.lookupKeys u (.sendMsg sender req.msg))).sendRespond
      ((w.procs p).alone.getBaseRespond s req.id .sendMsg) false) hq
  have hemits := Emits.sendRespond
    ((w.procs p).alone.issue (.lookupKeys u (.sendMsg sender req.msg)))
    ((w.procs p).alone.getBaseRespond s req.id .sendMsg) false
  have hquiet := Quiet.sendRespond
    ((w.procs p).alone.issue (.lookupKeys u (.sendMsg sender req.msg)))
    ((w.procs p).alone.getBaseRespond s req.id .sendMsg) false
  have hsockets := sendRespond_sockets
    ((w.procs p).alone.issue (.lookupKeys u (.sendMsg sender req.msg)))
    ((w.procs p).alone.getBaseRespond s req.id .sendMsg)
  generalize (((w.procs p).alone.issue (.lookupKeys u (.sendMsg sender req.msg))).sendRespond
    ((w.procs p).alone.getBaseRespond s req.id .sendMsg) false) = y at *
  generalize hz : w.alone.setProc p y = z at *
  have hcalls : (z.procs p).calls = [.lookupKeys u (.sendMsg sender req.msg)] := by
    rw [hself, Proc.calls, hemits.sent, hemits.answered]
    rfl
  have hout : (z.procs p).outbox = [] := by
    rw [hself, hemits.outbox]
    rfl
  have hnoticed : ∀ q t, Receives w z (sendMsgNotice sender.userId req.msg) q t 0 := by
    intro q t
    refine ⟨[], ?_, List.forall_mem_nil _, rfl⟩
    rw [List.append_nil]
    by_cases hq : q = p
    · rw [hq, hself, hquiet.noticed t]
      rfl
    · rw [hother q hq]
      rfl
  refine ⟨?_, ?_, ?_, ?_, ?_, ?_, ?_, ?_, ?_, fun q t _ => hnoticed q t⟩
  · intro q t
    by_cases hq : q = p
    · rw [hq, hself, hsockets t]
      rfl
    · rw [hother q hq]
      rfl
  · intro t
    rw [hself, hemits.userList]
    exact Or.inl rfl
  · intro q hq
    rw [hother q hq]
    exact ⟨rfl, rfl, rfl⟩
  · intro c hc
    rw [hcalls] at hc
    rw [List.mem_singleton.mp hc]
    exact .keys _ .first
  · intro c r hm
    rw [hself, hemits.answered] at hm
    cases hm
  · rw [hcalls]
    exact Queue.Rounds.singleton _
  · left
    rw [← hz]
    rfl
  · rw [hout]
    exact List.forall_mem_nil _
  · intro q t _
    refine ⟨0, hnoticed q t, ?_⟩
    rw [hcalls, hout]
    simp [Call.chatDue]

/- Handling the request ends, whatever the order of steps, and then every session
registered for `u` has been written `n` notices with the message, and no other
connection any. -/
structure MessageDelivered (w : World) (p : Pid) (s : Str) (req : Request) (now : ℕ) (u : Str)
    (sender : User) (n : ℕ) : Prop where
  ends : ∃ m bound, NodeServer.step w.alone (.message p s req now) = some m ∧
    ∀ tr v, Run.Path NodeServer.step m tr v → (∀ a ∈ tr, a.2.internal = true) →
      tr.length ≤ bound ∧
        (AtRest v ∨ ∃ e v', e.internal = true ∧ NodeServer.step v e = some v')
  received : ∀ m tr v, NodeServer.step w.alone (.message p s req now) = some m →
    Run.Path NodeServer.step m tr v → (∀ a ∈ tr, a.2.internal = true) → AtRest v →
    ∀ q t,
      (OpenSession w u q t → Receives w v (sendMsgNotice sender.userId req.msg) q t n) ∧
      (¬ OpenSession w u q t → Receives w v (sendMsgNotice sender.userId req.msg) q t 0)

section

variable {s : Str} {req : Request} (now : ℕ)

theorem ChatRequest.handled (h : ChatRequest w p s req u sender) (hw : WF w)
    (hsafe : LookupSafe w p u) (hu : Glob.plain u) {m v : World}
    (hm : NodeServer.step w.alone (.message p s req now) = some m) {tr : List (World × Event)}
    (hpath : Run.Path NodeServer.step m tr v) (hin : ∀ a ∈ tr, a.2.internal = true) :
    Chatting w p u sender req.msg v ∧ tr.length + w.chatWork v p u ≤ w.chatWork m p u :=
  Run.Path.bounded (fun _ e => e.internal = true) (Chatting w p u sender req.msg)
    (fun v => w.chatWork v p u) (h.chatting now hm)
    (fun _ _ _ hc he hs => hc.step hw hsafe hu he hs) hpath hin

/-- Every session is sent the message once for each record of its user. -/
theorem ChatRequest.delivered (h : ChatRequest w p s req u sender) (hw : WF w)
    (hsafe : LookupSafe w p u) (hu : Glob.plain u) :
    MessageDelivered w p s req now u sender (w.recordsOf u).length := by
  refine ⟨?_, ?_⟩
  · obtain ⟨m, hm⟩ : ∃ m, NodeServer.step w.alone (.message p s req now) = some m :=
      ⟨_, h.step now⟩
    refine ⟨m, w.chatWork m p u, hm, ?_⟩
    intro tr v hpath hin
    obtain ⟨hc, hle⟩ := h.handled now hw hsafe hu hm hpath hin
    exact ⟨Nat.le_of_add_right_le hle, hc.progress⟩
  · intro m tr v hm hpath hin hrest q t
    obtain ⟨hc, _⟩ := h.handled now hw hsafe hu hm hpath hin
    refine ⟨?_, hc.shut q t⟩
    intro ho
    obtain ⟨n, hrec, hsum⟩ := hc.balance q t ho
    rw [(hrest p).1, (hrest p).2] at hsum
    have hn : n = (w.recordsOf u).length := by simpa using hsum
    rwa [hn] at hrec

theorem ChatRequest.completes (h : ChatRequest w p s req u sender) (hw : WF w)
    (hsafe : LookupSafe w p u) (hu : Glob.plain u) : ∃ m tr v,
      NodeServer.step w.alone (.message p s req now) = some m ∧
      Run.Path NodeServer.step m tr v ∧ (∀ a ∈ tr, a.2.internal = true) ∧ AtRest v := by
  obtain ⟨v, hreach, hrest⟩ := Run.exists_done (fun _ (e : Event) => e.internal = true)
    (Chatting w p u sender req.msg) AtRest Nat.lt_wfRel.wf (fun v => w.chatWork v p u)
    (fun _ _ _ hc he hs => hc.step hw hsafe hu he hs) (fun _ hc => hc.progress) _
    (h.chatting now (h.step now))
  obtain ⟨tr, hpath, hin⟩ := hreach.path
  exact ⟨_, tr, v, h.step now, hpath, hin, hrest⟩

/- The number of notices is determined. -/
theorem ChatRequest.once_iff (h : ChatRequest w p s req u sender) (hw : WF w)
    (hsafe : LookupSafe w p u) (hu : Glob.plain u) (n : ℕ) :
    MessageDelivered w p s req now u sender n ↔
      (w.recordsOf u).length = n ∨ ∀ q t, ¬ OpenSession w u q t := by
  have hall := h.delivered now hw hsafe hu
  refine ⟨?_, ?_⟩
  · intro hn
    by_contra hno
    obtain ⟨hlength, hsome⟩ := not_or.mp hno
    obtain ⟨q, t, ho⟩ : ∃ q t, OpenSession w u q t := by
      by_contra hnone
      exact hsome fun q t ho => hnone ⟨q, t, ho⟩
    obtain ⟨m, tr, v, hm, hpath, hin, hrest⟩ := h.completes now hw hsafe hu
    exact hlength (((hall.received m tr v hm hpath hin hrest q t).1 ho).unique
      ((hn.received m tr v hm hpath hin hrest q t).1 ho))
  · rintro (rfl | hnone)
    · exact hall
    · refine ⟨hall.ends, ?_⟩
      intro m tr v hm hpath hin hrest q t
      exact ⟨fun ho => absurd ho (hnone q t), (hall.received m tr v hm hpath hin hrest q t).2⟩

end

end

/-- With its lookups exact, a private message reaches every registered session of
its target once just when the target has no second record, or nothing is to be
delivered. -/
theorem private_message_once_iff (w : World) (p : Pid) (s : Str) (req : Request) (now : ℕ) (u : Str)
    (sender : User) (hreach : Reachable w) (halnum : ∀ c ∈ u, c.isAlphanum = true)
    (hreq : ChatRequest w p s req u sender) (hsafe : LookupSafe w p u) :
    MessageDelivered w p s req now u sender 1 ↔
      (w.recordsOf u).length ≤ 1 ∨ ∀ q t, ¬ OpenSession w u q t := by
  have hu := plain_of_alphanum u halnum
  rw [hreq.once_iff now (WF.initial.reach hreach) hsafe hu]
  refine ⟨?_, ?_⟩
  · rintro (hone | hnone)
    · exact Or.inl (le_of_eq hone)
    · exact Or.inr hnone
  · rintro (hle | hnone)
    · by_cases hzero : (w.recordsOf u).length = 0
      · right
        intro q t ho
        have hone := ho.listed hu
        rw [List.eq_nil_of_length_eq_zero hzero] at hone
        cases hone
      · left
        omega
    · exact Or.inr hnone

/-! ### One session of the target, and two -/

def lookupSafeTest (w : World) (p : Pid) (u : Str) : Bool :=
  (AList.keys w.db).all fun k =>
    match w.db.get k with
    | some (.hash fields) =>
      Glob.stringmatch (userIdPattern u) k == decide (fieldOf fields UserIdKey = u) &&
        (fieldOf fields UserIdKey != u ||
          ((w.procs p).userList.get (fieldOf fields SocketIdKey)).all fun user => user.userId == u)
    | _ => true

theorem lookupSafeTest_sound {w : World} {p : Pid} {u : Str} (h : lookupSafeTest w p u = true) :
    LookupSafe w p u := by
  intro k fields hrec
  have htest := List.all_eq_true.mp h k ((Table.mem_keys_iff w.db k).mpr ⟨_, hrec.2⟩)
  rw [hrec.2] at htest
  simp only [Bool.and_eq_true, beq_iff_eq, Bool.or_eq_true, bne_iff_ne] at htest
  refine ⟨?_, ?_⟩
  · rw [htest.1]
    exact decide_eq_true_iff
  · intro hid user huser
    rcases htest.2 with hne | hall
    · exact absurd hid hne
    · rw [huser] at hall
      exact beq_iff_eq.mp hall

/- A sends itself a message. -/
theorem private_message_to_one_session :
    MessageDelivered (Run.ends step World.initial (onlineTrace ['u'])) 0 (socketIdOf ['A'])
        (sendMsgRequest ['u'] ['x']) 3 ['u']
        (createUserWithLogin 0 0 ['u'] (socketIdOf ['A']) (natText 1) (natText 2)) 1 ∧
      OpenSession (Run.ends step World.initial (onlineTrace ['u'])) ['u'] 0 (socketIdOf ['A']) := by
  obtain ⟨hrun, hsafe, hopen, hlogged, hrec, hrecords⟩ :
      (Run.runs step World.initial (onlineTrace ['u'])).isSome = true ∧
      lookupSafeTest (Run.ends step World.initial (onlineTrace ['u'])) 0 ['u'] = true ∧
      ((Run.ends step World.initial (onlineTrace ['u'])).procs 0).ws (socketIdOf ['A']) =
        some .opened ∧
      ((Run.ends step World.initial (onlineTrace ['u'])).procs 0).userList.get (socketIdOf ['A']) =
        some (createUserWithLogin 0 0 ['u'] (socketIdOf ['A']) (natText 1) (natText 2)) ∧
      ((Run.ends step World.initial (onlineTrace ['u'])).db.get
        (uniquePattern ['u'] (socketIdOf ['A']))).isSome = true ∧
      ((Run.ends step World.initial (onlineTrace ['u'])).recordsOf ['u']).length = 1 := by
    decide +kernel
  refine ⟨?_, Option.isSome_iff_ne_none.mp hrec, hopen, ?_⟩
  · refine (private_message_once_iff _ 0 _ _ 3 ['u'] _ (Run.reach_ends _ hrun)
      (List.forall_mem_singleton.mpr rfl) ⟨Or.inl hopen, by decide, hlogged, rfl⟩
      (lookupSafeTest_sound hsafe)).mpr (Or.inl (le_of_eq hrecords))
  · rw [hlogged]
    exact Option.some_ne_none _

/- A and B are both logged in as `u`, on processes 0 and 1, and A sends `u` a
message: each of the two sessions is sent it twice. -/
theorem private_message_repeated :
    ¬ ∀ (w : World) (p : Pid) (s : Str) (req : Request) (now : ℕ) (u : Str) (sender : User),
      Reachable w → (∀ c ∈ u, c.isAlphanum = true) → ChatRequest w p s req u sender →
      (∀ k ∈ w.recordsOf u, ∃ q t, k = uniquePattern u t ∧ OpenSession w u q t) →
      MessageDelivered w p s req now u sender 1 := by
  intro hall
  obtain ⟨hrun, hsafe, hopenA, hlogged, hopenB, hknownB, hrecords⟩ :
      (Run.runs step World.initial twoLoginsTrace).isSome = true ∧
      lookupSafeTest (Run.ends step World.initial twoLoginsTrace) 0 ['u'] = true ∧
      ((Run.ends step World.initial twoLoginsTrace).procs 0).ws (socketIdOf ['A']) = some .opened ∧
      ((Run.ends step World.initial twoLoginsTrace).procs 0).userList.get (socketIdOf ['A']) =
        some (createUserWithLogin 0 0 ['u'] (socketIdOf ['A']) (natText 1) (natText 3)) ∧
      ((Run.ends step World.initial twoLoginsTrace).procs 1).ws (socketIdOf ['B']) = some .opened ∧
      (((Run.ends step World.initial twoLoginsTrace).procs 1).userList.get
        (socketIdOf ['B'])).isSome = true ∧
      (Run.ends step World.initial twoLoginsTrace).recordsOf ['u'] =
        [uniquePattern ['u'] (socketIdOf ['B']), uniquePattern ['u'] (socketIdOf ['A'])] := by
    decide +kernel
  have hreach : Reachable (Run.ends step World.initial twoLoginsTrace) := Run.reach_ends _ hrun
  have halnum : ∀ c ∈ ['u'], c.isAlphanum = true := List.forall_mem_singleton.mpr rfl
  have hmem : ∀ k, k ∈ (Run.ends step World.initial twoLoginsTrace).recordsOf ['u'] →
      (Run.ends step World.initial twoLoginsTrace).db.get k ≠ none := fun k hk =>
    (mem_recordsOf.mp hk).1
  have hA : OpenSession (Run.ends step World.initial twoLoginsTrace) ['u'] 0 (socketIdOf ['A']) := by
    refine ⟨hmem _ (by rw [hrecords]; simp), hopenA, ?_⟩
    rw [hlogged]
    exact Option.some_ne_none _
  have hB : OpenSession (Run.ends step World.initial twoLoginsTrace) ['u'] 1 (socketIdOf ['B']) :=
    ⟨hmem _ (by rw [hrecords]; simp), hopenB, Option.isSome_iff_ne_none.mp hknownB⟩
  have hreq : ChatRequest (Run.ends step World.initial twoLoginsTrace) 0 (socketIdOf ['A'])
      (sendMsgRequest ['u'] ['x']) ['u']
      (createUserWithLogin 0 0 ['u'] (socketIdOf ['A']) (natText 1) (natText 3)) :=
    ⟨Or.inl hopenA, by decide, hlogged, rfl⟩
  have honce := hall _ 0 _ _ 5 ['u'] _ hreach halnum hreq (by
    intro k hk
    rw [hrecords] at hk
    rcases List.mem_cons.mp hk with rfl | hk
    · exact ⟨1, socketIdOf ['B'], rfl, hB⟩
    · rw [List.mem_singleton.mp hk]
      exact ⟨0, socketIdOf ['A'], rfl, hA⟩)
  rcases (hreq.once_iff 5 (WF.initial.reach hreach) (lookupSafeTest_sound hsafe)
    (plain_of_alphanum _ halnum) 1).mp honce with hone | hnone
  · rw [hrecords] at hone
    cases hone
  · exact hnone 0 _ hA

end NodeServer

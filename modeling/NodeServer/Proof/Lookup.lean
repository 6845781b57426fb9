import NodeServer.Proof.SingleLogin

/-! # Looking a user up

`getUserWithId` lists the keys a glob pattern matches and reads them one after
the other. `lookupFold` is its result when nothing else happens meanwhile. -/

namespace NodeServer

open DBModelKeys

/-- What the loop of `getUserWithId` collects; `none` when a reply never comes. -/
def lookupFold (db : Store.Db) : List Str → Proc → List User → Option (Proc × List User)
  | [], x, found => some (x, found)
  | key :: rest, x, found =>
    match Store.hgetall key db with
    | .hash res => lookupFold db rest x.newRef (found ++ [x.getUserWithRedis res])
    | _ => none

def Proc.idle (x : Proc) : Proc := { x with sent := [], answered := [] }

/- Process `p` with one lookup under way and nothing else. -/
def World.looking (w : World) (p : Pid) (u : Str) (next : LookupFor) : World :=
  w.setProc p ((w.procs p).idle.getUserWithId u next)

def readEvents (p : Pid) (keys : List Str) : List Event :=
  keys.flatMap fun _ => [.exec p (.done []), .reply p]

def lookupEvents (p : Pid) (order : List Str) : List Event :=
  [.exec p (.done order), .reply p] ++ readEvents p order

theorem read_one (w : World) (p : Pid) (next : LookupFor) (key : Str) (rest : List Str) (x : Proc)
    (found : List User) (res : List (Str × Str)) (hsent : x.sent = []) (hans : x.answered = [])
    (hw : w.procs p = x.issue (.lookupHash key rest found next))
    (hres : Store.hgetall key w.db = .hash res) :
    Run.runs step w [.exec p (.done []), .reply p] =
      some (w.setProc p (x.onLookupHash p next rest found (.hash res))) := by
  have hs : (w.procs p).sent = [.lookupHash key rest found next] := by simp [hw, Proc.issue, hsent]
  have hr : ((Call.lookupHash key rest found next).txn.run w.db).2.inOrder [] =
      some (.hash res) := by
    show (Store.hgetall key w.db).inOrder [] = _
    rw [hres]
    rfl
  have hx : ({ w.procs p with sent := [] } : Proc) = x := by
    rw [hw]
    simp only [Proc.issue]
    rw [← hsent]
  have hserve := serve_call w p _ [] [] _ hs (by simp [hw, Proc.issue, hans]) hr
  rw [hx] at hserve
  exact hserve

theorem read_runs (p : Pid) (next : LookupFor) (key : Str) (rest : List Str) (x : Proc)
    (found : List User) (w : World) (y : Proc) (users : List User) (hsent : x.sent = [])
    (hans : x.answered = []) (hw : w.procs p = x.issue (.lookupHash key rest found next))
    (h : lookupFold w.db (key :: rest) x found = some (y, users)) :
    Run.runs step w (readEvents p (key :: rest)) = some (w.setProc p (y.lookupDone p next users)) := by
  induction rest generalizing key x found w with
  | nil =>
    simp only [lookupFold] at h
    split at h
    · next res hres =>
      simp only [Option.some.injEq, Prod.mk.injEq] at h
      obtain ⟨rfl, rfl⟩ := h
      exact read_one w p next key [] x found res hsent hans hw hres
    · cases h
  | cons key' rest ih =>
    simp only [lookupFold] at h
    split at h
    · next res hres =>
      have hone := read_one w p next key (key' :: rest) x found res hsent hans hw hres
      have hsplit : readEvents p (key :: key' :: rest) =
          [.exec p (.done []), .reply p] ++ readEvents p (key' :: rest) := rfl
      rw [hsplit, Run.runs_append, hone, Option.bind_some]
      have hnext := ih key' x.newRef (found ++ [x.getUserWithRedis res])
        (w.setProc p (x.newRef.issue (.lookupHash key' rest (found ++ [x.getUserWithRedis res]) next)))
        hsent hans (setProc_self w p _) h
      rw [setProc_setProc] at hnext
      exact hnext
    · cases h

theorem lookup_runs (w : World) (p : Pid) (u : Str) (next : LookupFor) (order : List Str) (y : Proc)
    (users : List User) (horder : (Store.keys (userIdPattern u) w.db).inOrder order = some (.array order))
    (h : lookupFold w.db order (w.procs p).idle [] = some (y, users)) :
    Run.runs step (w.looking p u next) (lookupEvents p order) =
      some (w.setProc p (y.lookupDone p next users)) := by
  have hproc : (w.looking p u next).procs p = (w.procs p).idle.issue (.lookupKeys u next) :=
    setProc_self w p _
  have hx : ({ (w.looking p u next).procs p with sent := [] } : Proc) = (w.procs p).idle := by
    rw [hproc]
    rfl
  have hserve := serve_call (w.looking p u next) p (.lookupKeys u next) [] order (.array order)
    (by rw [hproc]; rfl) (by rw [hproc]; rfl) horder
  rw [hx] at hserve
  rw [lookupEvents, Run.runs_append, hserve, Option.bind_some]
  cases order with
  | nil =>
    simp only [lookupFold, Option.some.injEq, Prod.mk.injEq] at h
    obtain ⟨rfl, rfl⟩ := h
    show some (World.setProc _ _ _) = _
    rw [World.looking, setProc_setProc]
    rfl
  | cons key rest =>
    have hread := read_runs p next key rest (w.procs p).idle []
      (w.setProc p ((w.procs p).idle.issue (.lookupHash key rest [] next))) y users rfl rfl
      (setProc_self w p _) h
    rw [setProc_setProc] at hread
    rw [← hread, World.looking, setProc_setProc]
    rfl

/-! ### The users found -/

/- A hash under an online key. -/
def OnlineRecord (db : Store.Db) (k : Str) (fields : List (Str × Str)) : Prop :=
  IsOnlineKey k ∧ db.get k = some (.hash fields)

/-- The user `getUserWithRedis` makes of the record under a key. -/
def ReadFrom (db : Store.Db) (userList : Table User) (k : Str) (user : User) : Prop :=
  ∃ rec : User, db.get k = some (.hash rec.record) ∧
    match userList.get rec.socketId with
    | some u => user = u
    | none => ∃ ref, user = { rec with ref := ref, websocket := false }

/-- Only `nextRef` differs. -/
structure SameTables (x y : Proc) : Prop where
  conns : y.conns = x.conns
  userList : y.userList = x.userList
  sent : y.sent = x.sent
  outbox : y.outbox = x.outbox

theorem lookupFold_spec (db : Store.Db) (keys : List Str) (x : Proc) (found : List User)
    (hall : ∀ k ∈ keys, ∃ rec : User, db.get k = some (.hash rec.record)) :
    ∃ y news, lookupFold db keys x found = some (y, found ++ news) ∧ SameTables x y ∧
      List.Forall₂ (ReadFrom db x.userList) keys news := by
  induction keys generalizing x found with
  | nil => exact ⟨x, [], by simp [lookupFold], ⟨rfl, rfl, rfl, rfl⟩, .nil⟩
  | cons key rest ih =>
    obtain ⟨rec, hrec⟩ := hall key (List.mem_cons_self ..)
    have hget : Store.hgetall key db = .hash rec.record := by simp [Store.hgetall, hrec]
    obtain ⟨y, news, hfold, hsame, hread⟩ := ih x.newRef (found ++ [x.getUserWithRedis rec.record])
      fun k hk => hall k (List.mem_cons_of_mem _ hk)
    refine ⟨y, x.getUserWithRedis rec.record :: news, ?_, ?_, ?_⟩
    · simp only [lookupFold, hget, hfold, List.append_assoc, List.singleton_append]
    · exact ⟨hsame.conns, hsame.userList, hsame.sent, hsame.outbox⟩
    · refine .cons ⟨rec, hrec, ?_⟩ hread
      rw [getUserWithRedis_record]
      cases x.userList.get rec.socketId with
      | none => exact ⟨x.nextRef, rfl⟩
      | some u => rfl

/-! ### What the continuation touches -/

theorem sendOne_conns (p : Pid) (notice : Notice) (user : User) (x : Proc) (t : Str)
    (ht : t ≠ user.socketId) : (x.sendOne p notice user).conns.get t = x.conns.get t := by
  unfold Proc.sendOne
  by_cases hl : user.appInfo = appInfo p
  · simp only [hl, if_true, Proc.noticeSend]
    by_cases hw : user.websocket = true
    · simp only [hw, if_true]
      cases hsend : (x.bumpNotice user).wsSend user.socketId
          (.notice (x.noticeId user.ref) notice none) with
      | none => rfl
      | some y =>
        unfold Proc.wsSend at hsend
        split at hsend
        · cases hsend
          simp [Proc.setConn, Table.get_modify, ht, Proc.bumpNotice]
        · cases hsend
    · simp only [hw]
      rfl
  · simp only [hl, if_false]
    rfl

theorem sendAll_conns (p : Pid) (notice : Notice) (users : List User) (x : Proc) (t : Str)
    (ht : t ∉ users.map User.socketId) :
    (x.sendAll p notice users).conns.get t = x.conns.get t := by
  induction users generalizing x with
  | nil => rfl
  | cons user rest ih =>
    simp only [List.map_cons, List.mem_cons, not_or] at ht
    rw [show x.sendAll p notice (user :: rest) = (x.sendOne p notice user).sendAll p notice rest
      from rfl, ih _ ht.2, sendOne_conns p notice user x t ht.1]

theorem kickOld_conns (users : List User) (x : Proc) (t : Str) (ht : t ∉ users.map User.socketId) :
    (x.kickOld users).conns.get t = x.conns.get t := by
  induction users generalizing x with
  | nil => rfl
  | cons user rest ih =>
    simp only [List.map_cons, List.mem_cons, not_or] at ht
    by_cases hw : user.websocket = true
    · rw [show x.kickOld (user :: rest) = (x.wsClose user.socketId).kickOld rest by
        simp [Proc.kickOld, hw], ih _ ht.2]
      simp [Proc.wsClose, Proc.setConn, Table.get_modify, ht.1]
    · rw [show x.kickOld (user :: rest) = x.kickOld rest by simp [Proc.kickOld, hw], ih _ ht.2]

theorem afterSend_conns (after : AfterSend) (x : Proc) : (x.afterSend after).conns = x.conns := by
  cases after with
  | nobody => rfl
  | login l => rfl

theorem sendMsgs_conns (notice : Notice) (users : List User) (x : Proc) :
    (users.foldl (fun y des => y.senderSend des.userId notice) x).conns = x.conns := by
  induction users generalizing x with
  | nil => rfl
  | cons user rest ih => exact ih _

theorem lookupDone_conns (p : Pid) (next : LookupFor) (users : List User) (x : Proc) (t : Str)
    (ht : t ∉ users.map User.socketId) :
    (x.lookupDone p next users).conns.get t = x.conns.get t := by
  cases next with
  | notice notice after =>
    show ((x.sendAll p notice users).afterSend after).conns.get t = _
    rw [afterSend_conns, sendAll_conns p notice users x t ht]
  | loginKick l => exact kickOld_conns users x t ht
  | sendMsg user msg =>
    show (users.foldl _ x).conns.get t = _
    rw [sendMsgs_conns]

theorem lookupDone_outbox (p : Pid) (next : LookupFor) (users : List User) (x : Proc) :
    ∀ packet ∈ (x.lookupDone p next users).outbox,
      packet ∈ x.outbox ∨ ∃ user ∈ users, packet.socketId = user.socketId := by
  intro packet hp
  cases next with
  | notice notice after =>
    have hp : packet ∈ ((x.sendAll p notice users).afterSend after).outbox := hp
    rw [(Emits.afterSend _ after).outbox, (sendAll_spec p notice users x).outbox] at hp
    rcases List.mem_append.mp hp with hp | hp
    · exact Or.inl hp
    · obtain ⟨user, hu, rfl⟩ := List.mem_map.mp hp
      exact Or.inr ⟨user, (List.mem_filter.mp hu).1, rfl⟩
  | loginKick l =>
    have hp : packet ∈ ((x.kickOld users).issue (.loginSet l)).outbox := hp
    have hk := (Emits.kickOld x users).outbox
    rw [show ((x.kickOld users).issue (.loginSet l)).outbox = (x.kickOld users).outbox from rfl,
      hk] at hp
    exact Or.inl hp
  | sendMsg user msg =>
    have hk := (Emits.sendMsgs x (sendMsgNotice user.userId msg) users).outbox
    have hp : packet ∈ (users.foldl _ x).outbox := hp
    rw [hk] at hp
    exact Or.inl hp

theorem lookupDone_logouts (p : Pid) (next : LookupFor) (users : List User) (x : Proc)
    (user : User) (h : .logoutDel user ∈ (x.lookupDone p next users).sent) :
    .logoutDel user ∈ x.sent ∨ user ∈ users := by
  cases next with
  | notice notice after =>
    have h : .logoutDel user ∈ ((x.sendAll p notice users).afterSend after).sent := h
    rw [(Emits.afterSend _ after).sent, (sendAll_spec p notice users x).sent] at h
    rcases List.mem_append.mp h with h | h
    · rcases List.mem_append.mp h with h | h
      · exact Or.inl h
      · obtain ⟨v, hv, heq⟩ := List.mem_map.mp h
        cases heq
        exact Or.inr (List.mem_filter.mp hv).1
    · cases after with
      | nobody => cases h
      | login l => simp [AfterSend.calls] at h
  | loginKick l =>
    have h : .logoutDel user ∈ (x.kickOld users).sent ++ [.loginSet l] := h
    rw [(Emits.kickOld x users).sent, List.append_nil] at h
    exact Or.inl (by simpa using h)
  | sendMsg sender msg =>
    have h : .logoutDel user ∈ (users.foldl
      (fun y des => y.senderSend des.userId (sendMsgNotice sender.userId msg)) x).sent := h
    rw [(Emits.sendMsgs x (sendMsgNotice sender.userId msg) users).sent] at h
    rcases List.mem_append.mp h with h | h
    · exact Or.inl h
    · exact absurd h (logoutDel_notMem_fanOut _ _ user)

/-! ### What the continuation does for each user -/

def Proc.frames (x : Proc) (s : Str) : List Frame := ((x.conns.get s).map Conn.frames).getD []

theorem wsSend_frames (x y : Proc) (s : Str) (frame : Frame) (h : x.wsSend s frame = some y) :
    y.frames s = x.frames s ++ [frame] := by
  unfold Proc.wsSend at h
  split at h
  · next hopen =>
    cases h
    obtain ⟨c, hc, _⟩ := Option.map_eq_some_iff.mp hopen
    simp [Proc.frames, Proc.setConn, Table.get_modify, hc]
  · cases h

theorem sendOne_frames (p : Pid) (notice : Notice) (user : User) (x : Proc) (s : Str) :
    ∀ frame ∈ x.frames s, frame ∈ (x.sendOne p notice user).frames s := by
  intro frame hf
  by_cases hs : s = user.socketId
  · subst hs
    unfold Proc.sendOne Proc.noticeSend
    by_cases hl : user.appInfo = appInfo p
    · simp only [hl, if_true]
      by_cases hw : user.websocket = true
      · simp only [hw, if_true]
        cases hsend : (x.bumpNotice user).wsSend user.socketId
            (.notice (x.noticeId user.ref) notice none) with
        | none => exact hf
        | some y =>
          show frame ∈ y.frames user.socketId
          rw [wsSend_frames _ y _ _ hsend]
          exact List.mem_append_left _ hf
      · simp only [hw]
        exact hf
    · simp only [hl, if_false]
      exact hf
  · unfold Proc.frames at hf ⊢
    rwa [sendOne_conns p notice user x s hs]

theorem sendAll_frames (p : Pid) (notice : Notice) (users : List User) (x : Proc) (s : Str) :
    ∀ frame ∈ x.frames s, frame ∈ (x.sendAll p notice users).frames s := by
  induction users generalizing x with
  | nil => exact fun _ h => h
  | cons user rest ih =>
    intro frame hf
    exact ih _ frame (sendOne_frames p notice user x s frame hf)

theorem sendOne_writes (p : Pid) (notice : Notice) (user : User) (x : Proc)
    (happ : user.appInfo = appInfo p) (hsend : x.Sendable user) :
    ∃ n, .notice n notice none ∈ (x.sendOne p notice user).frames user.socketId := by
  refine ⟨x.noticeId user.ref, ?_⟩
  have hopen : (x.bumpNotice user).ws user.socketId = some .opened := hsend.2
  have hy : (x.bumpNotice user).wsSend user.socketId (.notice (x.noticeId user.ref) notice none) =
      some ((x.bumpNotice user).setConn user.socketId fun c =>
        { c with frames := c.frames ++ [.notice (x.noticeId user.ref) notice none] }) := by
    simp only [Proc.wsSend, hopen, if_true]
  have hframes := wsSend_frames _ _ _ _ hy
  simp only [Proc.sendOne, happ, if_true, Proc.noticeSend, hsend.1, hy]
  rw [hframes]
  exact List.mem_append_right _ (List.mem_singleton.mpr rfl)

theorem sendAll_writes (p : Pid) (notice : Notice) (users : List User) (x : Proc) (user : User)
    (hu : user ∈ users) (happ : user.appInfo = appInfo p) (hsend : x.Sendable user) :
    ∃ n, .notice n notice none ∈ (x.sendAll p notice users).frames user.socketId := by
  induction users generalizing x with
  | nil => cases hu
  | cons a rest ih =>
    have hone := sendOne_spec p notice a x
    rcases List.mem_cons.mp hu with rfl | hu
    · obtain ⟨n, hn⟩ := sendOne_writes p notice user x happ hsend
      exact ⟨n, sendAll_frames p notice rest _ _ _ hn⟩
    · exact ih (x.sendOne p notice a) hu ⟨hsend.1, by rw [hone.ws]; exact hsend.2⟩

/- What reaches a user found: a notice is written, forwarded or fails with a
logout; a login closes its websocket; a message goes on to its user id. -/
def Served (p : Pid) (next : LookupFor) (y z : Proc) (user : User) : Prop :=
  match next with
  | .notice notice _ =>
    (user.appInfo ≠ appInfo p ∧ ⟨user.appInfo, user.socketId, notice⟩ ∈ z.outbox) ∨
    (user.appInfo = appInfo p ∧ y.Sendable user ∧
      ∃ n, .notice n notice none ∈ z.frames user.socketId) ∨
    (user.appInfo = appInfo p ∧ ¬ y.Sendable user ∧ .logoutDel user ∈ z.sent)
  | .loginKick _ => user.websocket = true → z.ws user.socketId ≠ some .opened
  | .sendMsg sender msg =>
    .lookupKeys user.userId (.notice (sendMsgNotice sender.userId msg) .nobody) ∈ z.sent

theorem lookupDone_served (p : Pid) (next : LookupFor) (users : List User) (y : Proc) (user : User)
    (hu : user ∈ users) : Served p next y (y.lookupDone p next users) user := by
  cases next with
  | notice notice after =>
    have hspec := sendAll_spec p notice users y
    have hafter := Emits.afterSend (y.sendAll p notice users) after
    by_cases happ : user.appInfo = appInfo p
    · by_cases hsend : y.Sendable user
      · refine Or.inr (Or.inl ⟨happ, hsend, ?_⟩)
        obtain ⟨n, hn⟩ := sendAll_writes p notice users y user hu happ hsend
        refine ⟨n, ?_⟩
        show _ ∈ ((y.sendAll p notice users).afterSend after).frames user.socketId
        unfold Proc.frames at hn ⊢
        rwa [afterSend_conns]
      · refine Or.inr (Or.inr ⟨happ, hsend, ?_⟩)
        show _ ∈ ((y.sendAll p notice users).afterSend after).sent
        rw [hafter.sent, hspec.sent]
        refine List.mem_append_left _ (List.mem_append_right _ (List.mem_map_of_mem ?_))
        exact List.mem_filter.mpr ⟨hu, decide_eq_true ⟨happ, hsend⟩⟩
    · refine Or.inl ⟨happ, ?_⟩
      show _ ∈ ((y.sendAll p notice users).afterSend after).outbox
      rw [hafter.outbox, hspec.outbox]
      refine List.mem_append_right _ (List.mem_map.mpr ⟨user, ?_, rfl⟩)
      exact List.mem_filter.mpr ⟨hu, decide_eq_true happ⟩
  | loginKick l => exact kickOld_closes users y user hu
  | sendMsg sender msg =>
    show _ ∈ (users.foldl (fun y des => y.senderSend des.userId
      (sendMsgNotice sender.userId msg)) y).sent
    rw [(Emits.sendMsgs y (sendMsgNotice sender.userId msg) users).sent]
    refine List.mem_append_right _ (List.mem_map.mpr ⟨user.userId, ?_, rfl⟩)
    exact List.mem_map_of_mem hu

/-! ### Exact lookups -/

def SessionOf (db : Store.Db) (u s : Str) : Prop :=
  ∃ k fields, OnlineRecord db k fields ∧ fieldOf fields UserIdKey = u ∧
    fieldOf fields SocketIdKey = s

/- A lookup of `u` read each record of `u` once and no other, returned users `u`
only, and its continuation from `y` to `z` dealt with every session of `u` and
touched no other session. -/
structure ExactLookup (db : Store.Db) (p : Pid) (u : Str) (next : LookupFor) (order : List Str)
    (y z : Proc) (users : List User) : Prop where
  complete : ∀ k fields, OnlineRecord db k fields → fieldOf fields UserIdKey = u →
    order.count k = 1
  sound : ∀ k ∈ order, ∃ fields, OnlineRecord db k fields ∧ fieldOf fields UserIdKey = u
  read : List.Forall₂ (ReadFrom db y.userList) order users
  same : ∀ user ∈ users, user.userId = u
  conns : ∀ t, z.conns.get t ≠ y.conns.get t → SessionOf db u t
  packets : ∀ packet ∈ z.outbox, packet ∈ y.outbox ∨ SessionOf db u packet.socketId
  logouts : ∀ user, .logoutDel user ∈ z.sent → .logoutDel user ∈ y.sent ∨
    SessionOf db u user.socketId
  served : ∀ s, SessionOf db u s → ∃ user ∈ users, user.socketId = s ∧ Served p next y z user

def LookupIsExact (w : World) (p : Pid) (u : Str) (next : LookupFor) (order : List Str) : Prop :=
  ∃ y users, lookupFold w.db order (w.procs p).idle [] = some (y, users) ∧
    ExactLookup w.db p u next order y (y.lookupDone p next users) users

/- The pattern tells the records of `u` from all others, and the process's own
entries for sessions of `u` are users `u`. -/
def LookupSafe (w : World) (p : Pid) (u : Str) : Prop :=
  ∀ k fields, OnlineRecord w.db k fields →
    (Glob.stringmatch (userIdPattern u) k = true ↔ fieldOf fields UserIdKey = u) ∧
    (fieldOf fields UserIdKey = u → ∀ user,
      (w.procs p).userList.get (fieldOf fields SocketIdKey) = some user → user.userId = u)

theorem forall₂_mem_left {α β : Type} {R : α → β → Prop} {as : List α} {bs : List β}
    (h : List.Forall₂ R as bs) (a : α) (ha : a ∈ as) : ∃ b ∈ bs, R a b := by
  induction h with
  | nil => cases ha
  | cons hr _ ih =>
    rcases List.mem_cons.mp ha with rfl | ha
    · exact ⟨_, List.mem_cons_self .., hr⟩
    · obtain ⟨b, hb, hab⟩ := ih ha
      exact ⟨b, List.mem_cons_of_mem _ hb, hab⟩

theorem forall₂_mem_right {α β : Type} {R : α → β → Prop} {as : List α} {bs : List β}
    (h : List.Forall₂ R as bs) (b : β) (hb : b ∈ bs) : ∃ a ∈ as, R a b := by
  induction h with
  | nil => cases hb
  | cons hr _ ih =>
    rcases List.mem_cons.mp hb with rfl | hb
    · exact ⟨_, List.mem_cons_self .., hr⟩
    · obtain ⟨a, ha, hab⟩ := ih hb
      exact ⟨a, List.mem_cons_of_mem _ ha, hab⟩

/-- The user read from a record carries its socket id, and its user id unless
the process has an entry of its own. -/
theorem ReadFrom.user {w : World} (hw : WF w) {p : Pid} {k : Str} {user : User} {rec : User}
    (h : ReadFrom w.db (w.procs p).userList k user) (hk : w.db.get k = some (.hash rec.record)) :
    user.socketId = rec.socketId ∧
      (user.userId = rec.userId ∨ (w.procs p).userList.get rec.socketId = some user) ∧
      ((w.procs p).userList.get rec.socketId = none → user.userId = rec.userId) ∧
      (∀ u, (w.procs p).userList.get rec.socketId = some u → user = u) := by
  obtain ⟨rec', hk', hmatch⟩ := h
  rw [hk] at hk'
  have hrec : rec.record = rec'.record := by simpa using hk'
  have hs : rec.socketId = rec'.socketId := congrArg (fun fs => fieldOf fs SocketIdKey) hrec
  have hu : rec.userId = rec'.userId := congrArg (fun fs => fieldOf fs UserIdKey) hrec
  rw [hs, hu]
  cases hget : (w.procs p).userList.get rec'.socketId with
  | none =>
    rw [hget] at hmatch
    obtain ⟨ref, rfl⟩ := hmatch
    exact ⟨rfl, Or.inl rfl, fun _ => rfl, nofun⟩
  | some v =>
    rw [hget] at hmatch
    subst hmatch
    exact ⟨(hw.users p _ user hget).1, Or.inr rfl, nofun, fun u h => Option.some.inj h⟩

section

variable {w : World} (hw : WF w) {p : Pid} {u : Str} {next : LookupFor} {order : List Str}
  (horder : (Store.keys (userIdPattern u) w.db).inOrder order = some (.array order))
include hw horder

theorem listed_record (k : Str) (hk : k ∈ order) :
    IsOnlineKey k ∧ Glob.stringmatch (userIdPattern u) k = true ∧
      ∃ rec : User, w.db.get k = some (.hash rec.record) := by
  obtain ⟨_, _, hmem⟩ := Store.keys_inOrder order _ w.db _ horder
  obtain ⟨⟨value, hv⟩, hmatch⟩ := (hmem k).mp hk
  have hon : IsOnlineKey k := userIdPattern_family u k hmatch
  obtain ⟨rec, _, _, _, rfl⟩ := entry_online w.own w.db hw.db hon hv
  exact ⟨hon, hmatch, rec, hv⟩

theorem safe_of_exact (h : LookupIsExact w p u next order) : LookupSafe w p u := by
  obtain ⟨y, users, hfold, hx⟩ := h
  obtain ⟨y', news, hfold', hsame, hread⟩ := lookupFold_spec w.db order (w.procs p).idle []
    fun k hk => (listed_record hw horder k hk).2.2
  rw [hfold] at hfold'
  simp only [List.nil_append, Option.some.injEq, Prod.mk.injEq] at hfold'
  obtain ⟨rfl, rfl⟩ := hfold'
  intro k fields hrec
  obtain ⟨_, _, hmem⟩ := Store.keys_inOrder order _ w.db _ horder
  have hin : Glob.stringmatch (userIdPattern u) k = true ↔ k ∈ order := by
    rw [hmem k]
    exact ⟨fun h => ⟨⟨_, hrec.2⟩, h⟩, And.right⟩
  refine ⟨?_, ?_⟩
  · rw [hin]
    constructor
    · intro hk
      obtain ⟨fields', hrec', hu⟩ := hx.sound k hk
      have heq : fields = fields' := by simpa [hrec.2] using hrec'.2
      rw [heq]
      exact hu
    · intro hu
      have hone := hx.complete k fields hrec hu
      exact List.count_pos_iff.mp (by omega)
  · intro hu user huser
    have hk : k ∈ order := List.count_pos_iff.mp (by have := hx.complete k fields hrec hu; omega)
    obtain ⟨_, _, rec, hdb⟩ := listed_record hw horder k hk
    have hfields : fields = rec.record := by simpa [hrec.2] using hdb
    rw [hfields, fieldOf_record_socketId] at huser
    obtain ⟨v, hv, hfrom⟩ := forall₂_mem_left hread k hk
    have hvu := (ReadFrom.user hw hfrom hdb).2.2.2 user huser
    rw [← hvu]
    exact hx.same v hv

theorem exact_of_safe (h : LookupSafe w p u) : LookupIsExact w p u next order := by
  obtain ⟨y, users, hfold, hsame, hread⟩ := lookupFold_spec w.db order (w.procs p).idle []
    fun k hk => (listed_record hw horder k hk).2.2
  rw [List.nil_append] at hfold
  obtain ⟨_, hnodup, hmem⟩ := Store.keys_inOrder order _ w.db _ horder
  have hsound : ∀ k ∈ order, ∃ fields, OnlineRecord w.db k fields ∧ fieldOf fields UserIdKey = u := by
    intro k hk
    obtain ⟨hon, hmatch, rec, hdb⟩ := listed_record hw horder k hk
    exact ⟨rec.record, ⟨hon, hdb⟩, (h k _ ⟨hon, hdb⟩).1.mp hmatch⟩
  have hcomplete : ∀ k fields, OnlineRecord w.db k fields → fieldOf fields UserIdKey = u →
      k ∈ order := by
    intro k fields hrec hu
    exact (hmem k).mpr ⟨⟨_, hrec.2⟩, (h k fields hrec).1.mpr hu⟩
  -- every user found is `u`, on a session of `u`
  have husers : ∀ user ∈ users, user.userId = u ∧ SessionOf w.db u user.socketId := by
    intro user hu
    obtain ⟨k, hk, hfrom⟩ := forall₂_mem_right hread user hu
    obtain ⟨hon, _, rec, hdb⟩ := listed_record hw horder k hk
    obtain ⟨hs, huid, _, _⟩ := ReadFrom.user hw hfrom hdb
    obtain ⟨fields, hrec, hfu⟩ := hsound k hk
    have hfields : fields = rec.record := by simpa [hrec.2] using hdb
    subst hfields
    refine ⟨?_, k, rec.record, hrec, hfu, by rw [fieldOf_record_socketId, hs]⟩
    rcases huid with hid | hentry
    · rw [hid]
      exact hfu
    · exact (h k _ hrec).2 hfu user (by rw [fieldOf_record_socketId]; exact hentry)
  have hsession : ∀ t, t ∈ users.map User.socketId → SessionOf w.db u t := by
    intro t ht
    obtain ⟨user, hu, rfl⟩ := List.mem_map.mp ht
    exact (husers user hu).2
  refine ⟨y, users, hfold, ?_, hsound, ?_, fun user hu => (husers user hu).1, ?_, ?_, ?_, ?_⟩
  · intro k fields hrec hu
    exact List.count_eq_one_of_mem hnodup (hcomplete k fields hrec hu)
  · rw [hsame.userList]
    exact hread
  · intro t ht
    by_contra hn
    exact ht (lookupDone_conns p next users y t fun hm => hn (hsession t hm))
  · intro packet hp
    rcases lookupDone_outbox p next users y packet hp with hp | ⟨user, hu, hs⟩
    · exact Or.inl hp
    · rw [hs]
      exact Or.inr (husers user hu).2
  · intro user hm
    rcases lookupDone_logouts p next users y user hm with hm | hu
    · exact Or.inl hm
    · exact Or.inr (husers user hu).2
  · intro s ⟨k, fields, hrec, hu, hs⟩
    have hk := hcomplete k fields hrec hu
    obtain ⟨_, _, rec, hdb⟩ := listed_record hw horder k hk
    have hfields : fields = rec.record := by simpa [hrec.2] using hdb
    obtain ⟨user, huser, hfrom⟩ := forall₂_mem_left hread k hk
    refine ⟨user, huser, ?_, lookupDone_served p next users y user huser⟩
    rw [(ReadFrom.user hw hfrom hdb).1, ← hs, hfields, fieldOf_record_socketId]

end

/-- A lookup run on its own in a reachable state always resolves, and it is
exact just when the pattern separates the records of its user. -/
theorem lookup_exact_iff (w : World) (p : Pid) (u : Str) (next : LookupFor) (order : List Str)
    (hreach : Reachable w)
    (horder : (Store.keys (userIdPattern u) w.db).inOrder order = some (.array order)) :
    (∃ y users, lookupFold w.db order (w.procs p).idle [] = some (y, users) ∧
      Run.runs step (w.looking p u next) (lookupEvents p order) =
        some (w.setProc p (y.lookupDone p next users))) ∧
    (LookupIsExact w p u next order ↔ LookupSafe w p u) := by
  have hw := (allLive_reach hreach).1
  obtain ⟨y, users, hfold, _, _⟩ := lookupFold_spec w.db order (w.procs p).idle []
    fun k hk => (listed_record hw horder k hk).2.2
  rw [List.nil_append] at hfold
  exact ⟨⟨y, users, hfold, lookup_runs w p u next order y users horder hfold⟩,
    safe_of_exact hw horder, exact_of_safe hw horder⟩

/-! ### Two ids that differ after a dash -/

/- Connection A logs in as `v`. -/
def onlineTrace (v : Str) : List Event :=
  [.connect 0 ['A'] 1, .message 0 (socketIdOf ['A']) (loginRequest v) 2,
    .exec 0 (.done []), .reply 0, .exec 0 (.done []), .reply 0, .exec 0 (.done []), .reply 0]

theorem lookup_exact_iff_online :
    LookupIsExact (Run.ends step World.initial (onlineTrace ['a'])) 1 ['a']
        (.notice (.roomIn ['b']) .nobody) [uniquePattern ['a'] (socketIdOf ['A'])] ↔
      LookupSafe (Run.ends step World.initial (onlineTrace ['a'])) 1 ['a'] :=
  (lookup_exact_iff _ 1 ['a'] _ _ (Run.reach_ends (onlineTrace ['a']) (by decide +kernel)) rfl).2

theorem lookup_reads_other_user :
    ¬ ∀ (w : World) (p : Pid) (u : Str) (next : LookupFor) (order : List Str), Reachable w →
      (Store.keys (userIdPattern u) w.db).inOrder order = some (.array order) →
      LookupIsExact w p u next order := by
  intro hall
  obtain ⟨y, users, _, hx⟩ := hall (Run.ends step World.initial (onlineTrace ['a', '-', 'b'])) 1 ['a']
    (.notice (.roomIn ['c']) .nobody) [uniquePattern ['a', '-', 'b'] (socketIdOf ['A'])]
    (Run.reach_ends (onlineTrace ['a', '-', 'b']) (by decide +kernel)) rfl
  obtain ⟨fields, ⟨_, hget⟩, hu⟩ := hx.sound _ (List.mem_singleton.mpr rfl)
  have hrec : (Run.ends step World.initial (onlineTrace ['a', '-', 'b'])).db.get
      (uniquePattern ['a', '-', 'b'] (socketIdOf ['A'])) = some (.hash (createUserWithLogin 0 0
        ['a', '-', 'b'] (socketIdOf ['A']) (natText 1) (natText 2)).record) := rfl
  rw [hrec] at hget
  cases hget
  exact absurd hu (by decide)

end NodeServer

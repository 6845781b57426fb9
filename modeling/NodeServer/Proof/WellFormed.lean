import NodeServer.Proof.Steps

/-! # Well-formed worlds

Which users, keys and replies can turn up where. Nothing here depends on the
order of events: it follows from where the code takes each value from. -/

namespace NodeServer

open DBModelKeys

/-! ### Users and their records -/

/-- `s` is the id of a connection `p` has accepted. -/
def World.own (w : World) (p : Pid) (s : Str) : Prop := (w.procs p).conns.get s ≠ none

section

variable (own : Pid → Str → Prop)

/-- The user belongs to a connection of process `q`. -/
def UserOf (q : Pid) (user : User) : Prop := own q user.socketId ∧ user.appInfo = appInfo q

/-- A user object created by a login on `p`. -/
def Local (p : Pid) (user : User) : Prop := UserOf own p user ∧ user.websocket = true

/-- A user a lookup on `p` can return. -/
def FoundOk (p : Pid) (user : User) : Prop :=
  ∃ q, UserOf own q user ∧ (user.websocket = true → q = p)

end

theorem Local.found {own : Pid → Str → Prop} {p : Pid} {user : User} (h : Local own p user) :
    FoundOk own p user := ⟨p, h.1, fun _ => rfl⟩

theorem setFields_record_nil (user : User) : Store.setFields [] user.record = user.record := by
  simp +decide [Store.setFields, Store.setField, User.record]

theorem setFields_record (user old : User) :
    Store.setFields old.record user.record = user.record := by
  simp +decide [Store.setFields, Store.setField, User.record]

theorem createUserWithRedis_record (ref : ℕ) (user : User) :
    createUserWithRedis ref user.record = { user with ref := ref, websocket := false } := rfl

theorem fieldOf_record_socketId (user : User) :
    fieldOf user.record SocketIdKey = user.socketId := by
  simp [User.record, fieldOf]

/-- A record read back gives the local user object of its socket id, or a
remote image of the user it was written for. -/
theorem getUserWithRedis_record (x : Proc) (user : User) :
    x.getUserWithRedis user.record = match x.userList.get user.socketId with
      | some u => u
      | none => { user with ref := x.nextRef, websocket := false } := by
  unfold Proc.getUserWithRedis Proc.getUserWithSocket
  rw [fieldOf_record_socketId]
  cases x.userList.get user.socketId with
  | none => rfl
  | some u => rfl

/-! ### Keys -/

def IsOnlineKey (k : Str) : Prop := (OnlineUserKey ++ ['-']) <+: k

theorem IsOnlineKey.user (u s : Str) : IsOnlineKey (uniquePattern u s) :=
  ⟨u ++ '-' :: s, by simp [uniquePattern]⟩

theorem IsOnlineKey.ne_room {k : Str} (h : IsOnlineKey k) (r : Str) : k ≠ roomPattern r := by
  obtain ⟨t, rfl⟩ := h
  exact stems_disjoint 1 _ _ _ _ (by decide) (by decide) (by decide)

theorem IsOnlineKey.ne_member {k : Str} (h : IsOnlineKey k) (r : Str) : k ≠ memberPattern r := by
  obtain ⟨t, rfl⟩ := h
  exact stems_disjoint 1 _ _ _ _ (by decide) (by decide) (by decide)

theorem IsOnlineKey.ne_maxId {k : Str} (h : IsOnlineKey k) : k ≠ RoomMaxIdKey := by
  obtain ⟨t, rfl⟩ := h
  intro he
  exact stems_disjoint 1 (OnlineUserKey ++ ['-']) RoomMaxIdKey t [] (by decide) (by decide)
    (by decide) (by simpa using he)

/-! ### Calls, replies and stored values -/

section

variable (own : Pid → Str → Prop)

/-- A login looks its own user up, once to kick and once to close. -/
def NextOk (p : Pid) : LookupFor → Prop
  | .notice notice (.login l) => Local own p l.user ∧ notice = .kick l.user.userId
  | .loginKick l => Local own p l.user
  | _ => True

def CallOk (p : Pid) : Call → Prop
  | .lookupKeys userId next =>
    NextOk own p next ∧ ∀ l, next.login = some l → userId = l.user.userId
  | .lookupHash key rest userList next =>
    (∀ k ∈ key :: rest, IsOnlineKey k) ∧ (∀ user ∈ userList, FoundOk own p user) ∧ NextOk own p next
  | .loginSet l => Local own p l.user
  | .logoutDel user => UserOf own p user
  | .addRoomUserKeys user _ h => ∀ u, user = some u → Local own p u ∧ h.socketId = u.socketId
  | .addRoomUserMembers user _ h => Local own p user ∧ h.socketId = user.socketId
  | .addRoomUserAdd user _ h => Local own p user ∧ h.socketId = user.socketId
  | .delRoomUserMembers user _ h =>
    ∀ u, user = some u → Local own p u ∧ ∀ h', h = some h' → h'.socketId = u.socketId
  | .delRoomUserRem user _ h => Local own p user ∧ ∀ h', h = some h' → h'.socketId = user.socketId
  | _ => True

def ReplyOk : Call → Store.Reply → Prop
  | .lookupKeys _ _, .array ks => ∀ k ∈ ks, IsOnlineKey k
  | .lookupHash key _ _ _, .hash res => ∃ user q, UserOf own q user ∧ key = user.key ∧ res = user.record
  | _, _ => True

/-- What can stand under a key. -/
def EntryOk (k : Str) (value : Store.Value) : Prop :=
  (∃ user q, UserOf own q user ∧ k = user.key ∧ value = .hash user.record) ∨
  (∃ n, k = roomPattern (natText n) ∧ value = .hash [(RoomIdKey, natText n)]) ∨
  (∃ room ms, k = memberPattern room ∧ value = .set ms) ∨
  (k = RoomMaxIdKey ∧ ∃ n, value = .int n)

end

structure WF (w : World) : Prop where
  ids : ∀ p s, w.own p s → s ∈ w.socketIds
  shape : ∀ s ∈ w.socketIds, IsSocketId s
  owner : ∀ p q s, w.own p s → w.own q s → p = q
  users : ∀ p s user, (w.procs p).userList.get s = some user →
    user.socketId = s ∧ Local w.own p user
  calls : ∀ p, ∀ c ∈ (w.procs p).calls, CallOk w.own p c
  replies : ∀ p c r, (c, r) ∈ (w.procs p).answered → ReplyOk w.own c r
  db : ∀ k value, w.db.get k = some value → EntryOk w.own k value

theorem WF.initial : WF World.initial where
  ids := by
    intro p s h
    exact absurd rfl h
  shape := by
    intro s h
    cases h
  owner := by
    intro p q s h
    exact absurd rfl h
  users := by
    intro p s user h
    cases h
  calls := by
    intro p c h
    cases h
  replies := by
    intro p c r h
    cases h
  db := by
    intro k value h
    cases h

/-! ### More connections -/

section

variable {own own' : Pid → Str → Prop} (grows : ∀ q s, own q s → own' q s)
include grows

theorem UserOf.mono {q : Pid} {user : User} (h : UserOf own q user) : UserOf own' q user :=
  ⟨grows q _ h.1, h.2⟩

theorem Local.mono {p : Pid} {user : User} (h : Local own p user) : Local own' p user :=
  ⟨UserOf.mono grows h.1, h.2⟩

theorem FoundOk.mono {p : Pid} {user : User} (h : FoundOk own p user) : FoundOk own' p user := by
  obtain ⟨q, hq, hw⟩ := h
  exact ⟨q, UserOf.mono grows hq, hw⟩

theorem NextOk.mono {p : Pid} {next : LookupFor} (h : NextOk own p next) : NextOk own' p next := by
  cases next with
  | notice notice after =>
    cases after with
    | nobody => trivial
    | login l => exact ⟨Local.mono grows h.1, h.2⟩
  | loginKick l => exact Local.mono grows h
  | sendMsg user msg => trivial

theorem CallOk.mono {p : Pid} {c : Call} (h : CallOk own p c) : CallOk own' p c := by
  cases c with
  | lookupKeys userId next => exact ⟨NextOk.mono grows h.1, h.2⟩
  | lookupHash key rest userList next =>
    exact ⟨h.1, fun user hu => FoundOk.mono grows (h.2.1 user hu), NextOk.mono grows h.2.2⟩
  | loginSet l => exact Local.mono grows h
  | logoutDel user => exact UserOf.mono grows h
  | addRoomUserKeys user roomId hd =>
    exact fun u hu => ⟨Local.mono grows (h u hu).1, (h u hu).2⟩
  | addRoomUserMembers user roomId hd => exact ⟨Local.mono grows h.1, h.2⟩
  | addRoomUserAdd user roomId hd => exact ⟨Local.mono grows h.1, h.2⟩
  | delRoomUserMembers user roomId hd =>
    exact fun u hu => ⟨Local.mono grows (h u hu).1, (h u hu).2⟩
  | delRoomUserRem user roomId hd => exact ⟨Local.mono grows h.1, h.2⟩
  | _ => trivial

theorem ReplyOk.mono {c : Call} {r : Store.Reply} (h : ReplyOk own c r) : ReplyOk own' c r := by
  unfold ReplyOk at h ⊢
  split
  · exact h
  · obtain ⟨user, q, hq, hk, hr⟩ := h
    exact ⟨user, q, UserOf.mono grows hq, hk, hr⟩
  · trivial

theorem EntryOk.mono {k : Str} {value : Store.Value} (h : EntryOk own k value) :
    EntryOk own' k value := by
  rcases h with ⟨user, q, hq, hk, hv⟩ | h
  · exact Or.inl ⟨user, q, UserOf.mono grows hq, hk, hv⟩
  · exact Or.inr h

end

/-! ### What Redis does to its entries -/

section

variable (own : Pid → Str → Prop) (db : Store.Db)
  (hdb : ∀ k value, db.get k = some value → EntryOk own k value)
include hdb

theorem entry_online {k : Str} {value : Store.Value} (hk : IsOnlineKey k)
    (h : db.get k = some value) :
    ∃ user q, UserOf own q user ∧ k = user.key ∧ value = .hash user.record := by
  rcases hdb k value h with he | ⟨n, rfl, _⟩ | ⟨room, ms, rfl, _⟩ | ⟨rfl, _⟩
  · exact he
  · exact absurd rfl (hk.ne_room _)
  · exact absurd rfl (hk.ne_member _)
  · exact absurd rfl hk.ne_maxId

theorem entry_room {r : Str} {value : Store.Value} (h : db.get (roomPattern r) = some value) :
    ∃ n, r = natText n ∧ value = .hash [(RoomIdKey, natText n)] := by
  rcases hdb _ value h with ⟨user, q, _, hk, _⟩ | ⟨n, hk, hv⟩ | ⟨room, ms, hk, _⟩ | ⟨hk, _⟩
  · exact absurd hk.symm (uniquePattern_ne_roomPattern _ _ _)
  · exact ⟨n, (roomPattern_inj _ _).mp hk, hv⟩
  · exact absurd hk (roomPattern_ne_memberPattern _ _)
  · exact absurd hk (roomPattern_ne_maxId _)

theorem entry_member {r : Str} {value : Store.Value} (h : db.get (memberPattern r) = some value) :
    ∃ ms, value = .set ms := by
  rcases hdb _ value h with ⟨user, q, _, hk, _⟩ | ⟨n, hk, _⟩ | ⟨room, ms, _, hv⟩ | ⟨hk, _⟩
  · exact absurd hk.symm (uniquePattern_ne_memberPattern _ _ _)
  · exact absurd hk.symm (roomPattern_ne_memberPattern _ _)
  · exact ⟨ms, hv⟩
  · exact absurd hk (memberPattern_ne_maxId _)

theorem entry_maxId {value : Store.Value} (h : db.get RoomMaxIdKey = some value) :
    ∃ n, value = .int n := by
  rcases hdb _ value h with ⟨user, q, _, hk, _⟩ | ⟨n, hk, _⟩ | ⟨room, ms, hk, _⟩ | ⟨_, hv⟩
  · exact absurd hk.symm (uniquePattern_ne_maxId _ _)
  · exact absurd hk.symm (roomPattern_ne_maxId _)
  · exact absurd hk.symm (memberPattern_ne_maxId _)
  · exact hv

theorem hmset_record (user : User) :
    (Store.hmset user.key user.record db).1.get user.key = some (.hash user.record) := by
  rw [Store.hmset_get]
  cases h : db.get user.key with
  | none => simp only [setFields_record_nil]
  | some value =>
    obtain ⟨old, q, _, _, rfl⟩ := entry_online own db hdb (IsOnlineKey.user _ _) h
    simp only [setFields_record]

theorem hmset_room (n : ℕ) :
    (Store.hmset (roomPattern (natText n)) [(RoomIdKey, natText n)] db).1.get
      (roomPattern (natText n)) = some (.hash [(RoomIdKey, natText n)]) := by
  rw [Store.hmset_get]
  cases h : db.get (roomPattern (natText n)) with
  | none => rfl
  | some value =>
    obtain ⟨m, hm, rfl⟩ := entry_room own db hdb h
    rw [← hm]
    simp [Store.setFields, Store.setField]

end

theorem delRoom_run (db : Store.Db) (r : Str) (k : Str)
    (hk : k = memberPattern r ∨ k = roomPattern r) :
    ((Store.Txn.multi [.smembers (memberPattern r), .del (memberPattern r),
      .del (roomPattern r)]).run db).1.get k = none := by
  show (Store.del (roomPattern r) (Store.del (memberPattern r) db).1).1.get k = none
  rcases hk with rfl | rfl
  · have hne : memberPattern r ∉ (Store.Cmd.del (roomPattern r)).writes := by
      simpa [Store.Cmd.writes] using (roomPattern_ne_memberPattern r r).symm
    have hf := Store.run_frame (.del (roomPattern r)) (Store.del (memberPattern r) db).1 _ hne
    exact hf.trans (Store.del_get _ _)
  · exact Store.del_get _ _

/- The keys each call can change. -/
inductive Writes : Call → Str → Prop
  | login (l : LoginReq) (k : Str) (hk : k = l.user.key) : Writes (.loginSet l) k
  | logout (user : User) (k : Str) (hk : k = user.key) : Writes (.logoutDel user) k
  | count (user : Option User) (h : Handler) (k : Str) (hk : k = RoomMaxIdKey) :
      Writes (.addRoomIncr user h) k
  | create (n : ℕ) (h : Handler) (k : Str) (hk : k = roomPattern (natText n)) :
      Writes (.addRoomSet n h) k
  | close (roomId : JsVal) (h : Handler) (k : Str)
      (hk : k = memberPattern roomId.text ∨ k = roomPattern roomId.text) :
      Writes (.delRoomExec roomId h) k
  | join (user : User) (roomId : JsVal) (h : Handler) (k : Str) (hk : k = memberPattern roomId.text) :
      Writes (.addRoomUserAdd user roomId h) k
  | leave (user : User) (roomId : JsVal) (h : Option Handler) (k : Str)
      (hk : k = memberPattern roomId.text) : Writes (.delRoomUserRem user roomId h) k

theorem run_cases (c : Call) (db : Store.Db) (k : Str) :
    (c.txn.run db).1.get k = db.get k ∨ Writes c k := by
  by_cases hw : k ∈ c.txn.writes
  · refine Or.inr ?_
    cases c with
    | loginSet l => exact .login l k (by simpa [Call.txn, Store.Txn.writes, Store.Cmd.writes] using hw)
    | logoutDel user =>
      exact .logout user k (by simpa [Call.txn, Store.Txn.writes, Store.Cmd.writes] using hw)
    | addRoomIncr user h =>
      exact .count user h k (by simpa [Call.txn, Store.Txn.writes, Store.Cmd.writes] using hw)
    | addRoomSet n h =>
      exact .create n h k (by simpa [Call.txn, Store.Txn.writes, Store.Cmd.writes] using hw)
    | delRoomExec roomId h =>
      exact .close roomId h k (by simpa [Call.txn, Store.Txn.writes, Store.Cmd.writes] using hw)
    | addRoomUserAdd user roomId h =>
      exact .join user roomId h k (by simpa [Call.txn, Store.Txn.writes, Store.Cmd.writes] using hw)
    | delRoomUserRem user roomId h =>
      exact .leave user roomId h k (by simpa [Call.txn, Store.Txn.writes, Store.Cmd.writes] using hw)
    | _ => exact absurd hw (by simp [Call.txn, Store.Txn.writes, Store.Cmd.writes])
  · exact Or.inl (Store.txn_frame c.txn db k hw)

theorem entry_run (own : Pid → Str → Prop) (db : Store.Db) (p : Pid) (c : Call)
    (hdb : ∀ k value, db.get k = some value → EntryOk own k value) (hc : CallOk own p c) (k : Str)
    (value : Store.Value) (hk : (c.txn.run db).1.get k = some value) : EntryOk own k value := by
  rcases run_cases c db k with hsame | hw
  · rw [hsame] at hk
    exact hdb k value hk
  cases hw with
  | login l k hkey =>
    subst hkey
    rw [show (Call.loginSet l).txn.run db = Store.hmset l.user.key l.user.record db from rfl,
      hmset_record own db hdb] at hk
    exact Or.inl ⟨l.user, p, hc.1, rfl, (Option.some.inj hk).symm⟩
  | logout user k hkey =>
    subst hkey
    rw [show (Call.logoutDel user).txn.run db = Store.del user.key db from rfl,
      Store.del_get] at hk
    cases hk
  | count user h k hkey =>
    subst hkey
    rw [show (Call.addRoomIncr user h).txn.run db = Store.incr RoomMaxIdKey db from rfl,
      Store.incr_get] at hk
    cases hmax : db.get RoomMaxIdKey with
    | none =>
      rw [hmax] at hk
      exact Or.inr (Or.inr (Or.inr ⟨rfl, _, (Option.some.inj hk).symm⟩))
    | some old =>
      obtain ⟨n, rfl⟩ := entry_maxId own db hdb hmax
      rw [hmax] at hk
      exact Or.inr (Or.inr (Or.inr ⟨rfl, _, (Option.some.inj hk).symm⟩))
  | create n h k hkey =>
    subst hkey
    rw [show (Call.addRoomSet n h).txn.run db = Store.hmset (roomPattern (natText n))
      [(RoomIdKey, natText n)] db from rfl, hmset_room own db hdb] at hk
    exact Or.inr (Or.inl ⟨n, rfl, (Option.some.inj hk).symm⟩)
  | close roomId h k hkey =>
    rw [show (Call.delRoomExec roomId h).txn = .multi [.smembers (memberPattern roomId.text),
      .del (memberPattern roomId.text), .del (roomPattern roomId.text)] from rfl,
      delRoom_run db roomId.text k hkey] at hk
    cases hk
  | join user roomId h k hkey =>
    subst hkey
    rcases Store.sadd_get _ _ db value hk with hold | ⟨ms, rfl⟩
    · exact hdb _ value hold
    · exact Or.inr (Or.inr (Or.inl ⟨_, ms, rfl, rfl⟩))
  | leave user roomId h k hkey =>
    subst hkey
    rcases Store.srem_get _ _ db value hk with hold | ⟨ms, rfl⟩
    · exact hdb _ value hold
    · exact Or.inr (Or.inr (Or.inl ⟨_, ms, rfl, rfl⟩))

theorem run_online (own : Pid → Str → Prop) (db : Store.Db)
    (hdb : ∀ k value, db.get k = some value → EntryOk own k value) (c : Call) (k : Str)
    (hk : IsOnlineKey k) :
    (c.txn.run db).1.get k = db.get k ∨
    (∃ l, c = .loginSet l ∧ l.user.key = k ∧ (c.txn.run db).1.get k = some (.hash l.user.record)) ∨
    (∃ user, c = .logoutDel user ∧ user.key = k ∧ (c.txn.run db).1.get k = none) := by
  rcases run_cases c db k with hsame | hw
  · exact Or.inl hsame
  cases hw with
  | login l k hkey =>
    subst hkey
    exact Or.inr (Or.inl ⟨l, rfl, rfl, hmset_record own db hdb l.user⟩)
  | logout user k hkey =>
    subst hkey
    exact Or.inr (Or.inr ⟨user, rfl, rfl, Store.del_get _ _⟩)
  | count user h k hkey => exact absurd hkey hk.ne_maxId
  | create n h k hkey => exact absurd hkey (hk.ne_room _)
  | close roomId h k hkey =>
    rcases hkey with hkey | hkey
    · exact absurd hkey (hk.ne_member _)
    · exact absurd hkey (hk.ne_room _)
  | join user roomId h k hkey => exact absurd hkey (hk.ne_member _)
  | leave user roomId h k hkey => exact absurd hkey (hk.ne_member _)

theorem reply_run (own : Pid → Str → Prop) (db : Store.Db) (p : Pid) (c : Call)
    (hdb : ∀ k value, db.get k = some value → EntryOk own k value) (hc : CallOk own p c)
    (order : List Str) (r : Store.Reply) (hr : (c.txn.run db).2.inOrder order = some r) :
    ReplyOk own c r := by
  cases c with
  | lookupKeys userId next =>
    obtain ⟨rfl, _, hmem⟩ := Store.keys_inOrder order _ db r hr
    intro k hk
    exact userIdPattern_family userId k ((hmem k).mp hk).2
  | lookupHash key rest userList next =>
    have hget : (Store.hgetall key db).inOrder order = some r := hr
    unfold Store.hgetall at hget
    cases hv : db.get key with
    | none =>
      simp only [hv, Store.Reply.inOrder, Store.Reply.listed, Option.some.injEq] at hget
      subst hget
      trivial
    | some value =>
      obtain ⟨user, q, hq, hk, rfl⟩ :=
        entry_online own db hdb (hc.1 key (List.mem_cons_self ..)) hv
      simp only [hv, Store.Reply.inOrder, Store.Reply.listed, Option.some.injEq] at hget
      subst hget
      exact ⟨user, q, hq, hk, rfl⟩
  | _ => trivial

/-! ### What a step leaves of the calls and connections -/

section

variable {w v : World} {e : Event} {p : Pid} {c : Call} {r : Store.Reply}

theorem Executed.own (h : Executed w v e p c r) (q : Pid) (s : Str) : v.own q s ↔ w.own q s := by
  unfold World.own
  by_cases hq : q = p
  · rw [hq, h.conns]
  · rw [h.others q hq]

theorem Executed.users (h : Executed w v e p c r) (q : Pid) :
    (v.procs q).userList = (w.procs q).userList := by
  by_cases hq : q = p
  · rw [hq, h.userList]
  · rw [h.others q hq]

theorem Executed.ws (h : Executed w v e p c r) (q : Pid) (s : Str) :
    (v.procs q).ws s = (w.procs q).ws s := by
  unfold Proc.ws
  by_cases hq : q = p
  · rw [hq, h.conns]
  · rw [h.others q hq]

theorem Executed.calls (h : Executed w v e p c r) (q : Pid) :
    (v.procs q).calls = (w.procs q).calls := by
  by_cases hq : q = p
  · subst hq
    simp [Proc.calls, h.answered, h.sent]
  · rw [h.others q hq]

theorem Executed.mem_answered (h : Executed w v e p c r) (q : Pid) (c' : Call) (r' : Store.Reply)
    (hm : (c', r') ∈ (v.procs q).answered) :
    (c', r') ∈ (w.procs q).answered ∨ (q = p ∧ c' = c ∧ r' = r) := by
  by_cases hq : q = p
  · subst hq
    rw [h.answered] at hm
    rcases List.mem_append.mp hm with hm | hm
    · exact Or.inl hm
    · have heq := List.mem_singleton.mp hm
      exact Or.inr ⟨rfl, congrArg Prod.fst heq, congrArg Prod.snd heq⟩
  · rw [h.others q hq] at hm
    exact Or.inl hm

theorem Executed.sent_back (h : Executed w v e p c r) {q : Pid} {c' : Call}
    (hm : c' ∈ (v.procs q).sent) : c' ∈ (w.procs q).sent := by
  by_cases hq : q = p
  · subst hq
    rw [h.sent]
    exact List.mem_cons_of_mem _ hm
  · rwa [h.others q hq] at hm

theorem Executed.sent_head (h : Executed w v e p c r) : (w.procs p).sent.head? = some c := by
  rw [h.sent]
  rfl

theorem Executed.mem_sent (h : Executed w v e p c r) : c ∈ (w.procs p).sent :=
  List.mem_of_mem_head? h.sent_head

theorem Executed.mem_calls (h : Executed w v e p c r) : c ∈ (w.procs p).calls := by
  simp [Proc.calls, h.sent]

end

section

variable {w v : World} {e : Event} {p : Pid} {i : Input} {x : Proc}

theorem Handled.arrives (h : Handled w v e p i x) : Arrives w e p i :=
  inputOf_arrives w e p i h.input

theorem Handled.reply_mem (h : Handled w v e p i x) (c : Call) (r : Store.Reply)
    (hi : i = .reply c r) : (c, r) ∈ (w.procs p).answered := by
  have ha := h.arrives
  rw [hi] at ha
  exact ha.2

theorem Handled.fresh (h : Handled w v e p i x) (s : Str) (now : ℕ) (hi : i = .connect s now) :
    s ∉ w.socketIds ∧ IsSocketId s := by
  have ha := h.arrives
  rw [hi] at ha
  obtain ⟨suffix, _, hb, hs, hnew⟩ := ha
  exact ⟨hnew, suffix, hb, hs⟩

theorem WF.keyed (hw : WF w) (p : Pid) : (w.procs p).Keyed :=
  fun s user hu => (hw.users p s user hu).1

theorem Handled.keyed (h : Handled w v e p i x) (hw : WF w) : x.Keyed := by
  intro s user hu
  rw [h.userList] at hu
  exact hw.keyed p s user hu

theorem Handled.effect (h : Handled w v e p i x) (hw : WF w) :
    ∃ news outs, Effect p i x (v.procs p) news outs := by
  rw [h.after]
  apply react_effect p i x (h.keyed hw)
  intro s now hi
  rw [h.conns]
  by_contra hn
  exact (h.fresh s now hi).1 (hw.ids p s hn)

theorem Handled.other_conns (h : Handled w v e p i x) (q : Pid) (hq : q ≠ p) :
    (v.procs q).conns = (w.procs q).conns ∧ (v.procs q).userList = (w.procs q).userList ∧
      (v.procs q).sent = (w.procs q).sent ∧ (v.procs q).answered = (w.procs q).answered := by
  obtain ⟨outbox, hv, _⟩ := h.others q hq
  rw [hv]
  exact ⟨rfl, rfl, rfl, rfl⟩

theorem Handled.own_mono (h : Handled w v e p i x) (hw : WF w) (q : Pid) (s : Str)
    (ho : w.own q s) : v.own q s := by
  unfold World.own at ho ⊢
  by_cases hq : q = p
  · subst hq
    obtain ⟨news, outs, heff⟩ := h.effect hw
    have hstep := heff.conns s
    rw [h.conns] at hstep
    intro hn
    rw [hn] at hstep
    cases hc : (w.procs q).conns.get s with
    | none => exact ho hc
    | some c =>
      rw [hc] at hstep
      exact hstep
  · rw [(h.other_conns q hq).1]
    exact ho

theorem Handled.own_cases (h : Handled w v e p i x) (hw : WF w) (q : Pid) (s : Str)
    (ho : v.own q s) : w.own q s ∨ (q = p ∧ ∃ now, i = .connect s now) := by
  unfold World.own at ho ⊢
  by_cases hq : q = p
  · subst hq
    obtain ⟨news, outs, heff⟩ := h.effect hw
    have hstep := heff.conns s
    rw [h.conns] at hstep
    cases hc : (w.procs q).conns.get s with
    | some c => exact Or.inl (by simp)
    | none =>
      obtain ⟨d, hd⟩ := Option.ne_none_iff_exists'.mp ho
      rw [hc, hd] at hstep
      obtain ⟨now, hi, _⟩ := hstep
      exact Or.inr ⟨rfl, now, hi⟩
  · rw [(h.other_conns q hq).1] at ho
    exact Or.inl ho

theorem Handled.answered_sub (h : Handled w v e p i x) (hw : WF w) (q : Pid) (cr : Call × Store.Reply)
    (hm : cr ∈ (v.procs q).answered) : cr ∈ (w.procs q).answered := by
  by_cases hq : q = p
  · subst hq
    obtain ⟨news, outs, heff⟩ := h.effect hw
    rw [heff.answered] at hm
    rw [h.answered]
    exact List.mem_append_right _ hm
  · rwa [(h.other_conns q hq).2.2.2] at hm

theorem Handled.sent_cases (h : Handled w v e p i x) (hw : WF w) (q : Pid) (c : Call)
    (hm : c ∈ (v.procs q).sent) : c ∈ (w.procs q).sent ∨ (q = p ∧ Origin p i x c) := by
  by_cases hq : q = p
  · subst hq
    obtain ⟨news, outs, heff⟩ := h.effect hw
    rw [heff.sent, h.sent] at hm
    rcases List.mem_append.mp hm with hm | hm
    · exact Or.inl hm
    · exact Or.inr ⟨rfl, heff.origin c hm⟩
  · rw [(h.other_conns q hq).2.2.1] at hm
    exact Or.inl hm

theorem Handled.call_cases (h : Handled w v e p i x) (hw : WF w) (q : Pid) (c : Call)
    (hm : c ∈ (v.procs q).calls) : c ∈ (w.procs q).calls ∨ (q = p ∧ Origin p i x c) := by
  rcases List.mem_append.mp hm with ha | hs
  · obtain ⟨cr, hcr, rfl⟩ := List.mem_map.mp ha
    exact Or.inl (List.mem_append_left _ (List.mem_map_of_mem (h.answered_sub hw q cr hcr)))
  · rcases h.sent_cases hw q c hs with hs | ho
    · exact Or.inl (List.mem_append_right _ hs)
    · exact Or.inr ho

theorem Handled.calls_eq (h : Handled w v e p i x) (hw : WF w) :
    ∃ news outs, Effect p i x (v.procs p) news outs ∧
      (w.procs p).calls = i.replied.map Prod.fst ++ x.calls ∧
      (v.procs p).calls = x.calls ++ news := by
  obtain ⟨news, outs, heff⟩ := h.effect hw
  refine ⟨news, outs, heff, ?_, ?_⟩
  · simp only [Proc.calls, h.answered, h.sent, List.map_append, List.append_assoc]
  · simp only [Proc.calls, heff.answered, heff.sent, List.append_assoc]

/-- Operations of a kind stay single: an input carries one of them on, or starts
one where none was pending. -/
theorem Handled.one_chain (h : Handled w v e p i x) (hw : WF w) (f : Call → Bool)
    (hf : ∀ c, f c = true → c.chained = true) (hone : ((w.procs p).calls.filter f).length ≤ 1)
    (horigin : ∀ c, Origin p i x c → f c = true →
      (∃ c₀ r, i = .reply c₀ r ∧ f c₀ = true) ∨ (w.procs p).calls.filter f = []) :
    ((v.procs p).calls.filter f).length ≤ 1 := by
  obtain ⟨news, outs, heff, hbefore, hafter⟩ := h.calls_eq hw
  have hnews := heff.atMostOne f hf
  rw [hbefore, List.filter_append, List.length_append] at hone
  rw [hafter, List.filter_append, List.length_append]
  cases hn : news.filter f with
  | nil =>
    rw [List.length_nil]
    omega
  | cons c cs =>
    rw [hn] at hnews
    obtain ⟨hmem, hc⟩ := List.mem_filter.mp (hn ▸ List.mem_cons_self .. : c ∈ news.filter f)
    rcases horigin c (heff.origin c hmem) hc with ⟨c₀, r, hi, hc₀⟩ | hnone
    · have hrep : ((i.replied.map Prod.fst).filter f).length = 1 := by
        rw [hi]
        simp [Input.replied, hc₀]
      omega
    · rw [hbefore, List.filter_append] at hnone
      rw [(List.append_eq_nil_iff.mp hnone).2, List.length_nil]
      omega

theorem Handled.last_chain (h : Handled w v e p i x) (hw : WF w) (f : Call → Bool)
    (hone : ((w.procs p).calls.filter f).length ≤ 1) {c₀ : Call} {r : Store.Reply}
    (hi : i = .reply c₀ r) (hc₀ : f c₀ = true) (hstop : ∀ c, Origin p i x c → f c = false) :
    (v.procs p).calls.filter f = [] := by
  obtain ⟨news, outs, heff, hbefore, hafter⟩ := h.calls_eq hw
  have hrep : ((i.replied.map Prod.fst).filter f).length = 1 := by
    rw [hi]
    simp [Input.replied, hc₀]
  have hnews : news.filter f = [] := by
    rw [List.filter_eq_nil_iff]
    intro c hc
    rw [hstop c (heff.origin c hc)]
    decide
  rw [hbefore, List.filter_append, List.length_append] at hone
  rw [hafter, List.filter_append, hnews, List.append_nil]
  exact List.eq_nil_of_length_eq_zero (by omega)

end

theorem Executed.online {w v : World} {e : Event} {p : Pid} {c : Call} {r : Store.Reply}
    (h : Executed w v e p c r) (hw : WF w) (k : Str) (hk : IsOnlineKey k) :
    v.db.get k = w.db.get k ∨
    (∃ l, c = .loginSet l ∧ l.user.key = k ∧ v.db.get k = some (.hash l.user.record)) ∨
    (∃ user, c = .logoutDel user ∧ user.key = k ∧ v.db.get k = none) := by
  rcases h.db with ⟨order, _, hdb, _⟩ | ⟨message, _, hdb, _⟩
  · rw [hdb]
    exact run_online w.own w.db hw.db c k hk
  · exact Or.inl (by rw [hdb])

theorem Executed.read {w v : World} {e : Event} {p : Pid} {key : Str} {keys : List Str}
    {userList : List User} {next : LookupFor} {res : List (Str × Str)}
    (h : Executed w v e p (.lookupHash key keys userList next) (.hash res)) (hw : WF w) :
    ∃ user q, UserOf w.own q user ∧ key = user.key ∧ res = user.record ∧
      w.db.get user.key = some (.hash user.record) := by
  have hok := hw.calls p _ h.mem_calls
  rcases h.db with ⟨order, _, _, hrun⟩ | ⟨message, _, _, hfail⟩
  · have hget : (Store.hgetall key w.db).inOrder order = some (.hash res) := hrun
    unfold Store.hgetall at hget
    cases hv : w.db.get key with
    | none => simp [hv, Store.Reply.inOrder, Store.Reply.listed] at hget
    | some value =>
      obtain ⟨user, q, hq, hk, rfl⟩ :=
        entry_online w.own w.db hw.db (hok.1 key (List.mem_cons_self ..)) hv
      simp only [hv, Store.Reply.inOrder, Store.Reply.listed, Option.some.injEq,
        Store.Reply.hash.injEq] at hget
      exact ⟨user, q, hq, hk, hget.symm, by rw [← hk, hv]⟩
  · cases hfail

theorem WF.key_inj {w : World} (hw : WF w) {p q : Pid} {user : User} {u s : Str}
    (hu : w.own q user.socketId) (hs : w.own p s) (h : user.key = uniquePattern u s) :
    user.userId = u ∧ user.socketId = s :=
  uniquePattern_inj _ _ _ _ (hw.shape _ (hw.ids q _ hu)) (hw.shape _ (hw.ids p _ hs)) h

/-! ### Every reachable world is well formed -/

theorem WF.executed {w v : World} {e : Event} {p : Pid} {c : Call} {r : Store.Reply} (hw : WF w)
    (h : Executed w v e p c r) : WF v := by
  have grows : ∀ q s, w.own q s → v.own q s := fun q s ho => (h.own q s).mpr ho
  have hc : CallOk w.own p c := hw.calls p c h.mem_calls
  refine ⟨?_, ?_, ?_, ?_, ?_, ?_, ?_⟩
  · intro q s ho
    rw [h.socketIds]
    exact hw.ids q s ((h.own q s).mp ho)
  · rw [h.socketIds]
    exact hw.shape
  · intro q q' s ho ho'
    exact hw.owner q q' s ((h.own q s).mp ho) ((h.own q' s).mp ho')
  · intro q s user hu
    rw [h.users q] at hu
    exact ⟨(hw.users q s user hu).1, Local.mono grows (hw.users q s user hu).2⟩
  · intro q c' hc'
    rw [h.calls q] at hc'
    exact CallOk.mono grows (hw.calls q c' hc')
  · intro q c' r' hm
    apply ReplyOk.mono grows
    rcases h.mem_answered q c' r' hm with hm | ⟨rfl, rfl, rfl⟩
    · exact hw.replies q c' r' hm
    · rcases h.db with ⟨order, _, _, hr⟩ | ⟨message, _, _, rfl⟩
      · exact reply_run w.own w.db q c' hw.db hc order r' hr
      · cases c' <;> trivial
  · intro k value hk
    apply EntryOk.mono grows
    rcases h.db with ⟨order, _, hdb, _⟩ | ⟨message, _, hdb, _⟩
    · rw [hdb] at hk
      exact entry_run w.own w.db p c hw.db hc k value hk
    · rw [hdb] at hk
      exact hw.db k value hk

section

variable {w v : World} {e : Event} {p : Pid} {i : Input} {x : Proc}

theorem Handled.callOk (h : Handled w v e p i x) (hw : WF w) (c : Call) (r : Store.Reply)
    (hi : i = .reply c r) : CallOk w.own p c ∧ ReplyOk w.own c r := by
  have hm := h.reply_mem c r hi
  exact ⟨hw.calls p c (List.mem_append_left _ (List.mem_map_of_mem hm)), hw.replies p c r hm⟩

theorem Handled.asked_own (h : Handled w v e p i x) (s : Str) (req : Request) (now : ℕ)
    (hi : i = .message s req now) : w.own p s := by
  have ha := h.arrives
  rw [hi] at ha
  intro hn
  rcases ha.2 with hs | hs
  · simp [Proc.ws, hn] at hs
  · simp [Proc.ws, hn] at hs

theorem Handled.local_user (h : Handled w v e p i x) (hw : WF w) (s : Str) (user : User)
    (hu : x.userList.get s = some user) : user.socketId = s ∧ Local w.own p user := by
  rw [h.userList] at hu
  exact hw.users p s user hu

theorem Handled.redisUser (h : Handled w v e p i x) (hw : WF w) (q : Pid) (user : User)
    (hq : UserOf w.own q user) : FoundOk w.own p (x.getUserWithRedis user.record) := by
  rw [getUserWithRedis_record]
  cases hu : x.userList.get user.socketId with
  | none => exact ⟨q, hq, fun hf => Bool.noConfusion hf⟩
  | some u => exact (h.local_user hw _ u hu).2.found

theorem Handled.resolved (h : Handled w v e p i x) (hw : WF w) (next : LookupFor)
    (userList : List User) (hr : Resolves i x next userList) :
    NextOk w.own p next ∧ ∀ user ∈ userList, FoundOk w.own p user := by
  rcases hr with ⟨userId, r, hi, _, rfl⟩ | ⟨key, found, res, hi, rfl⟩
  · obtain ⟨hc, _⟩ := h.callOk hw _ _ hi
    exact ⟨hc.1, by simp⟩
  · obtain ⟨hc, user, q, hq, _, rfl⟩ := h.callOk hw _ _ hi
    refine ⟨hc.2.2, ?_⟩
    intro u hu
    rcases List.mem_append.mp hu with hu | hu
    · exact hc.2.1 u hu
    · rw [List.mem_singleton.mp hu]
      exact h.redisUser hw q user hq

theorem Handled.loggedOut (h : Handled w v e p i x) (hw : WF w) (user : User)
    (hl : LogsOut p i x user) : UserOf w.own p user := by
  rcases hl with ⟨s, _, hu⟩ | ⟨notice, after, userList, hr, hmem, happ, _⟩
  · exact (h.local_user hw s user hu).2.1
  · obtain ⟨q, hq, _⟩ := (h.resolved hw _ userList hr).2 user hmem
    have hqp : q = p := appInfo_injective (hq.2.symm.trans happ)
    rwa [hqp] at hq

theorem Handled.originOk (h : Handled w v e p i x) (hw : WF w) (c : Call) (ho : Origin p i x c) :
    CallOk w.own p c := by
  cases ho with
  | loginStart s req now userId connectTime asks given fresh =>
    refine ⟨⟨⟨⟨h.asked_own s req now asks.1, rfl⟩, rfl⟩, rfl⟩, ?_⟩
    intro l hl
    cases hl
    rfl
  | notify userId notice => exact ⟨trivial, by simp [LookupFor.login]⟩
  | loginAgain l notice userList resolves =>
    refine ⟨(h.resolved hw _ userList resolves).1.1, ?_⟩
    intro l' hl
    cases hl
    rfl
  | sendMsg s req now user toUserId asks logged => exact ⟨trivial, by simp [LookupFor.login]⟩
  | hashFirst userId next key rest replied =>
    obtain ⟨hc, hr⟩ := h.callOk hw _ _ replied
    exact ⟨hr, by simp, hc.1⟩
  | hashNext key₀ next key rest userList res replied =>
    obtain ⟨hc, user, q, hq, _, rfl⟩ := h.callOk hw _ _ replied
    refine ⟨fun k hk => hc.1 k (List.mem_cons_of_mem _ hk), ?_, hc.2.2⟩
    intro u hu
    rcases List.mem_append.mp hu with hu | hu
    · exact hc.2.1 u hu
    · rw [List.mem_singleton.mp hu]
      exact h.redisUser hw q user hq
  | loginSet l userList resolves => exact (h.resolved hw _ userList resolves).1
  | logoutDel user logsOut => exact h.loggedOut hw user logsOut
  | addRoomUserKeys s req now hd asks hs =>
    intro u hu
    obtain ⟨hsock, hloc⟩ := h.local_user hw s u hu
    exact ⟨hloc, hs.trans hsock.symm⟩
  | addRoomUserMembers user roomId hd k ks replied =>
    exact (h.callOk hw _ _ replied).1 user rfl
  | addRoomUserAdd user roomId hd r replied => exact (h.callOk hw _ _ replied).1
  | roomOut s req now hd asks hs inRoom =>
    intro u hu
    obtain ⟨hsock, hloc⟩ := h.local_user hw s u hu
    refine ⟨hloc, ?_⟩
    intro h' hh
    cases hh
    exact hs.trans hsock.symm
  | leave s user disconnects logged inRoom =>
    intro u hu
    cases hu
    exact ⟨(h.local_user hw s user logged).2, by simp⟩
  | delRoomUserRem user roomId hd r replied => exact (h.callOk hw _ _ replied).1 user rfl
  | _ => trivial

theorem WF.handled (hw : WF w) (h : Handled w v e p i x) : WF v := by
  have grows : ∀ q s, w.own q s → v.own q s := h.own_mono hw
  obtain ⟨news, outs, heff⟩ := h.effect hw
  refine ⟨?_, ?_, ?_, ?_, ?_, ?_, ?_⟩
  · intro q s ho
    rw [h.socketIds]
    rcases h.own_cases hw q s ho with ho | ⟨rfl, now, rfl⟩
    · exact List.mem_append_right _ (hw.ids q s ho)
    · exact List.mem_append_left _ (List.mem_singleton.mpr rfl)
  · intro s hs
    rw [h.socketIds] at hs
    rcases List.mem_append.mp hs with hs | hs
    · cases i with
      | connect t now =>
        rw [List.mem_singleton.mp hs]
        exact (h.fresh t now rfl).2
      | _ => cases hs
    · exact hw.shape s hs
  · intro q q' s ho ho'
    have new : ∀ t, w.own t s → ¬ ∃ now, i = .connect s now := by
      rintro t ht ⟨now, hi⟩
      exact (h.fresh s now hi).1 (hw.ids t s ht)
    rcases h.own_cases hw q s ho with ho | ⟨hq, hi⟩
    · rcases h.own_cases hw q' s ho' with ho' | ⟨_, hi'⟩
      · exact hw.owner q q' s ho ho'
      · exact absurd hi' (new q ho)
    · rcases h.own_cases hw q' s ho' with ho' | ⟨hq', _⟩
      · exact absurd hi (new q' ho')
      · rw [hq, hq']
  · intro q s user hu
    by_cases hq : q = p
    · subst hq
      rcases heff.users s with hs | ⟨hs, _⟩ | ⟨l, r, hi, hl, hs⟩
      · rw [hs] at hu
        obtain ⟨hsock, hloc⟩ := h.local_user hw s user hu
        exact ⟨hsock, Local.mono grows hloc⟩
      · rw [hs] at hu
        cases hu
      · rw [hs] at hu
        cases hu
        exact ⟨hl, Local.mono grows (h.callOk hw _ _ hi).1⟩
    · rw [(h.other_conns q hq).2.1] at hu
      exact ⟨(hw.users q s user hu).1, Local.mono grows (hw.users q s user hu).2⟩
  · intro q c hc
    apply CallOk.mono grows
    rcases h.call_cases hw q c hc with hc | ⟨rfl, ho⟩
    · exact hw.calls q c hc
    · exact h.originOk hw c ho
  · intro q c r hm
    exact ReplyOk.mono grows (hw.replies q c r (h.answered_sub hw q (c, r) hm))
  · intro k value hk
    rw [h.db] at hk
    exact EntryOk.mono grows (hw.db k value hk)

end

theorem WF.step {w v : World} {e : Event} (hw : WF w) (h : step w e = some v) : WF v := by
  rcases step_cases w v e h with ⟨p, c, r, hx⟩ | ⟨p, i, x, hx⟩
  · exact hw.executed hx
  · exact hw.handled hx

theorem WF.reach {ok : World → Event → Prop} {w v : World} (hw : WF w)
    (h : Run.Reach NodeServer.step ok w v) : WF v :=
  Run.Reach.invariant WF hw (fun _ _ _ hv _ hs => hv.step hs) h

end NodeServer

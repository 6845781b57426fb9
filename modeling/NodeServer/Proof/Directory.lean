import NodeServer.Spec.Directory
import NodeServer.Proof.Kicks
import NodeServer.Proof.KeyTypes

/-! # Redis as the shared directory

Each step of the system changes the directory by one operation at most, and each
operation is one that somebody has asked for. -/

namespace NodeServer

open DBModelKeys

def serverOf : Store.Value → Option AppInfo
  | .hash fields => some ⟨fieldOf fields ServerHostKey, fieldOf fields ServerPortKey⟩
  | _ => none

/- The directory that the keys of Redis stand for. -/
def directoryOf (db : Store.Db) : Directory where
  sessions := fun u s => (db.get (uniquePattern u s.1)).bind serverOf
  lastRoom := maxId db
  rooms := { room | db.get (roomPattern room) ≠ none }
  members := fun room => { u | u ∈ members db room }

/-! ### Which keys a call writes -/

def Call.writesTo : Call → List Family
  | .loginSet _ | .logoutDel _ => [.online]
  | .addRoomIncr _ _ => [.maxId]
  | .addRoomSet _ _ => [.room]
  | .delRoomExec _ _ => [.member, .room]
  | .addRoomUserAdd _ _ _ | .delRoomUserRem _ _ _ => [.member]
  | _ => []

theorem Writes.family {c : Call} {k : Str} (h : Writes c k) : ∃ F ∈ c.writesTo, Family.Has F k := by
  cases h with
  | login l k hk => exact ⟨.online, by simp [Call.writesTo], hk ▸ online_has _ _⟩
  | logout user k hk => exact ⟨.online, by simp [Call.writesTo], hk ▸ online_has _ _⟩
  | count user h k hk => exact ⟨.maxId, by simp [Call.writesTo], hk⟩
  | create n h k hk => exact ⟨.room, by simp [Call.writesTo], hk ▸ room_has _⟩
  | close roomId h k hk =>
    rcases hk with hk | hk
    · exact ⟨.member, by simp [Call.writesTo], hk ▸ member_has _⟩
    · exact ⟨.room, by simp [Call.writesTo], hk ▸ room_has _⟩
  | join user roomId h k hk => exact ⟨.member, by simp [Call.writesTo], hk ▸ member_has _⟩
  | leave user roomId h k hk => exact ⟨.member, by simp [Call.writesTo], hk ▸ member_has _⟩

theorem run_kept (c : Call) (db : Store.Db) {F : Family} (hF : F ∉ c.writesTo) (k : Str)
    (hk : F.Has k) : (c.txn.run db).1.get k = db.get k := by
  rcases run_cases c db k with hsame | hwrites
  · exact hsame
  · obtain ⟨G, hG, hGk⟩ := hwrites.family
    rw [Family.disjoint hGk hk] at hG
    exact absurd hG hF

section

variable {db db' : Store.Db}

theorem sessions_kept (h : ∀ k, Family.online.Has k → db'.get k = db.get k) :
    (directoryOf db').sessions = (directoryOf db).sessions := by
  funext u s
  simp only [directoryOf, h _ (online_has u s.1)]

theorem lastRoom_kept (h : ∀ k, Family.maxId.Has k → db'.get k = db.get k) :
    (directoryOf db').lastRoom = (directoryOf db).lastRoom := by
  simp only [directoryOf, maxId, h RoomMaxIdKey rfl]

theorem rooms_kept (h : ∀ k, Family.room.Has k → db'.get k = db.get k) :
    (directoryOf db').rooms = (directoryOf db).rooms := by
  simp only [directoryOf, h _ (room_has _)]

theorem members_kept (h : ∀ k, Family.member.Has k → db'.get k = db.get k) :
    (directoryOf db').members = (directoryOf db).members := by
  funext room
  simp only [directoryOf, members, Store.membersOf, h _ (member_has room)]

end

/-! ### The operation a call performs -/

inductive Performs : Call → Directory.Op → Prop
  | login (l : LoginReq) (s : SocketId) (hs : s.1 = l.user.socketId) :
      Performs (.loginSet l) (.register l.user.userId s l.user.appInfo)
  | logout (user : User) (s : SocketId) (hs : s.1 = user.socketId) :
      Performs (.logoutDel user) (.unregister user.userId s)
  | count (user : Option User) (h : Handler) : Performs (.addRoomIncr user h) .drawRoom
  | create (n : ℕ) (h : Handler) : Performs (.addRoomSet n h) (.openRoom (natText n))
  | close (room : JsVal) (h : Handler) : Performs (.delRoomExec room h) (.closeRoom room.text)
  | join (user : User) (room : JsVal) (h : Handler) :
      Performs (.addRoomUserAdd user room h) (.join room.text user.userId)
  | leave (user : User) (room : JsVal) (h : Option Handler) :
      Performs (.delRoomUserRem user room h) (.leave room.text user.userId)

section

variable {own : Pid → Str → Prop} {db : Store.Db}

/- A record of connection `s` is written or deleted. -/
theorem directory_session {c : Call} (hc : c.writesTo = [.online]) {user : User} {s : SocketId}
    (hs : s.1 = user.socketId) (hkey : ∀ k, Writes c k → k = user.key) {server : Option AppInfo}
    (hset : ((c.txn.run db).1.get user.key).bind serverOf = server) :
    directoryOf (c.txn.run db).1 = (directoryOf db).setSession user.userId s server := by
  refine Directory.ext ?_ (lastRoom_kept (run_kept c db (by rw [hc]; decide)))
    (rooms_kept (run_kept c db (by rw [hc]; decide)))
    (members_kept (run_kept c db (by rw [hc]; decide)))
  funext u t
  by_cases heq : u = user.userId ∧ t = s
  · obtain ⟨rfl, rfl⟩ := heq
    simp only [directoryOf, Directory.setSession, and_self, if_true, hs]
    exact hset
  · simp only [directoryOf, Directory.setSession, heq, if_false]
    rcases run_cases c db (uniquePattern u t.1) with hsame | hwrites
    · rw [hsame]
    · have hk : uniquePattern u t.1 = uniquePattern user.userId s.1 := by
        rw [hs]
        exact hkey _ hwrites
      obtain ⟨hu, ht⟩ := uniquePattern_inj _ _ _ _ t.2 s.2 hk
      exact absurd ⟨hu, Subtype.ext ht⟩ heq

/- The members of one room change. -/
theorem directory_member {c : Call} (hc : c.writesTo = [.member]) {room : Str}
    (hkey : ∀ k, Writes c k → k = memberPattern room) {users : Set Str}
    (hset : ∀ u, u ∈ members (c.txn.run db).1 room ↔ u ∈ users) :
    directoryOf (c.txn.run db).1 = (directoryOf db).setMembers room users := by
  refine Directory.ext (sessions_kept (run_kept c db (by rw [hc]; decide)))
    (lastRoom_kept (run_kept c db (by rw [hc]; decide)))
    (rooms_kept (run_kept c db (by rw [hc]; decide))) ?_
  funext r
  by_cases heq : r = room
  · subst heq
    simp only [directoryOf, Directory.setMembers, if_true]
    ext u
    exact hset u
  · simp only [directoryOf, Directory.setMembers, heq, if_false]
    have hsame : (c.txn.run db).1.get (memberPattern r) = db.get (memberPattern r) := by
      rcases run_cases c db (memberPattern r) with hsame | hwrites
      · exact hsame
      · exact absurd ((memberPattern_inj _ _).mp (hkey _ hwrites)) heq
    simp only [members, Store.membersOf, hsame]

theorem directory_close (room : JsVal) (hd : Handler) :
    directoryOf ((Call.delRoomExec room hd).txn.run db).1 =
      (directoryOf db).apply (.closeRoom room.text) := by
  have hgone : ∀ k, k = memberPattern room.text ∨ k = roomPattern room.text →
      ((Call.delRoomExec room hd).txn.run db).1.get k = none := delRoom_run db room.text
  have hother : ∀ k, k ≠ memberPattern room.text → k ≠ roomPattern room.text →
      ((Call.delRoomExec room hd).txn.run db).1.get k = db.get k := by
    intro k hm hr
    rcases run_cases (.delRoomExec room hd) db k with hsame | hwrites
    · exact hsame
    · cases hwrites with
      | close _ _ _ hk => exact absurd hk (by simp [hm, hr])
  refine Directory.ext (sessions_kept (run_kept _ db (by simp [Call.writesTo])))
    (lastRoom_kept (run_kept _ db (by simp [Call.writesTo]))) ?_ ?_
  · ext r
    simp only [directoryOf, Directory.apply, Directory.setMembers, Set.mem_ofPred_eq, Set.mem_sdiff,
      Set.mem_singleton_iff]
    by_cases heq : r = room.text
    · subst heq
      simp [hgone _ (Or.inr rfl)]
    · rw [hother _ (roomPattern_ne_memberPattern r room.text)
        fun hk => heq ((roomPattern_inj _ _).mp hk)]
      simp [heq]
  · funext r
    simp only [directoryOf, Directory.apply, Directory.setMembers]
    by_cases heq : r = room.text
    · subst heq
      simp [members, Store.membersOf, hgone _ (Or.inl rfl)]
    · have hsame := hother (memberPattern r) (fun hk => heq ((memberPattern_inj _ _).mp hk))
        (roomPattern_ne_memberPattern room.text r).symm
      simp only [members, Store.membersOf, hsame, heq, if_false]

theorem directory_logout (user : User) (s : SocketId) (hs : s.1 = user.socketId) :
    directoryOf ((Call.logoutDel user).txn.run db).1 =
      (directoryOf db).apply (.unregister user.userId s) := by
  refine directory_session rfl hs ?_ ?_
  · intro k hw
    cases hw with
    | logout _ _ hk => exact hk
  · show ((Store.del user.key db).1.get user.key).bind serverOf = _
    rw [Store.del_get]
    rfl

theorem directory_leave (user : User) (room : JsVal) (hd : Option Handler) :
    directoryOf ((Call.delRoomUserRem user room hd).txn.run db).1 =
      (directoryOf db).apply (.leave room.text user.userId) := by
  refine directory_member rfl ?_ ?_
  · intro k hw
    cases hw with
    | leave _ _ _ _ hk => exact hk
  · intro u
    rw [Set.mem_sdiff, Set.mem_singleton_iff, and_comm]
    exact Store.membersOf_srem _ _ _ _

variable (hdb : ∀ k value, db.get k = some value → EntryOk own k value)
include hdb

theorem directory_create (n : ℕ) (hd : Handler) :
    directoryOf ((Call.addRoomSet n hd).txn.run db).1 =
      (directoryOf db).apply (.openRoom (natText n)) := by
  refine Directory.ext (sessions_kept (run_kept _ db (by simp [Call.writesTo])))
    (lastRoom_kept (run_kept _ db (by simp [Call.writesTo]))) ?_ (members_kept (run_kept _ db (by simp [Call.writesTo])))
  ext room
  simp only [directoryOf, Directory.apply, Set.mem_ofPred_eq, Set.mem_insert_iff]
  by_cases heq : room = natText n
  · subst heq
    have hset : ((Call.addRoomSet n hd).txn.run db).1.get (roomPattern (natText n)) ≠ none := by
      show (Store.hmset _ _ db).1.get _ ≠ none
      rw [hmset_room own db hdb n]
      exact Option.some_ne_none _
    simp [hset]
  · have hsame : ((Call.addRoomSet n hd).txn.run db).1.get (roomPattern room) =
        db.get (roomPattern room) := by
      rcases run_cases (.addRoomSet n hd) db (roomPattern room) with hsame | hwrites
      · exact hsame
      · cases hwrites with
        | create _ _ _ hk => exact absurd ((roomPattern_inj _ _).mp hk) heq
    rw [hsame]
    simp [heq]

theorem directory_login (l : LoginReq) (s : SocketId) (hs : s.1 = l.user.socketId) :
    directoryOf ((Call.loginSet l).txn.run db).1 =
      (directoryOf db).apply (.register l.user.userId s l.user.appInfo) := by
  refine directory_session rfl hs ?_ ?_
  · intro k hw
    cases hw with
    | login _ _ hk => exact hk
  · show ((Store.hmset l.user.key l.user.record db).1.get l.user.key).bind serverOf = _
    rw [hmset_record own db hdb l.user]
    rfl

theorem directory_join (user : User) (room : JsVal) (hd : Handler) :
    directoryOf ((Call.addRoomUserAdd user room hd).txn.run db).1 =
      (directoryOf db).apply (.join room.text user.userId) := by
  refine directory_member rfl ?_ ?_
  · intro k hw
    cases hw with
    | join _ _ _ _ hk => exact hk
  · have htype : db.get (memberPattern room.text) = none ∨
        ∃ ms, db.get (memberPattern room.text) = some (.set ms) := by
      cases hget : db.get (memberPattern room.text) with
      | none => exact Or.inl rfl
      | some value =>
        obtain ⟨ms, rfl⟩ := entry_member own db hdb hget
        exact Or.inr ⟨ms, rfl⟩
    intro u
    exact Store.membersOf_sadd _ _ _ htype _

/- At the end of its range the counter stays as it is. -/
theorem directory_count (user : Option User) (hd : Handler) :
    directoryOf ((Call.addRoomIncr user hd).txn.run db).1 = directoryOf db ∨
      directoryOf ((Call.addRoomIncr user hd).txn.run db).1 = (directoryOf db).apply .drawRoom := by
  have hcount : ∀ n, maxId ((Call.addRoomIncr user hd).txn.run db).1 = n →
      directoryOf ((Call.addRoomIncr user hd).txn.run db).1 =
        { directoryOf db with lastRoom := n } := by
    intro n hn
    exact Directory.ext (sessions_kept (run_kept _ db (by simp [Call.writesTo]))) hn
      (rooms_kept (run_kept _ db (by simp [Call.writesTo])))
      (members_kept (run_kept _ db (by simp [Call.writesTo])))
  rcases incr_run own db hdb with ⟨_, hmax⟩ | ⟨hmax, _⟩
  · exact Or.inr (hcount _ hmax)
  · exact Or.inl (hcount _ hmax)

/-- An executed call performs its operation, or changes nothing. -/
theorem directory_run (c : Call) (hlogin : ∀ l, c = .loginSet l → IsSocketId l.user.socketId)
    (hlogout : ∀ user, c = .logoutDel user → IsSocketId user.socketId) :
    directoryOf (c.txn.run db).1 = directoryOf db ∨
      ∃ op, Performs c op ∧ directoryOf (c.txn.run db).1 = (directoryOf db).apply op := by
  cases c with
  | loginSet l =>
    exact Or.inr ⟨_, .login l ⟨_, hlogin l rfl⟩ rfl, directory_login hdb l ⟨_, hlogin l rfl⟩ rfl⟩
  | logoutDel user =>
    exact Or.inr ⟨_, .logout user ⟨_, hlogout user rfl⟩ rfl,
      directory_logout user ⟨_, hlogout user rfl⟩ rfl⟩
  | addRoomIncr user hd =>
    rcases directory_count hdb user hd with hsame | hdraw
    · exact Or.inl hsame
    · exact Or.inr ⟨_, .count user hd, hdraw⟩
  | addRoomSet n hd => exact Or.inr ⟨_, .create n hd, directory_create hdb n hd⟩
  | delRoomExec room hd => exact Or.inr ⟨_, .close room hd, directory_close room hd⟩
  | addRoomUserAdd user room hd => exact Or.inr ⟨_, .join user room hd, directory_join hdb user room hd⟩
  | delRoomUserRem user room hd => exact Or.inr ⟨_, .leave user room hd, directory_leave user room hd⟩
  | _ => exact Or.inl rfl

end

/-! ### Whole runs -/

/- The run `tr` up to `w` has asked for the operation, and what the servers checked for it
held. -/
def Allowed (tr : List (World × Event)) (w : World) : Directory.Op → Prop
  | .register userId s server =>
    LoginAsked tr s.1 userId ∧ ∃ p, w.own p s.1 ∧ server = appInfo p
  | .unregister userId s => ∃ p user, User.userId user = userId ∧ user.socketId = s.1 ∧
      SessionLost tr p user
  | .drawRoom => CreateAsked tr
  | .openRoom room => ∃ n, room = natText n ∧ Creating tr n
  | .closeRoom room => ∃ roomId, room = JsVal.text roomId ∧ ClosingRoom tr roomId
  | .join room userId => ∃ roomId, room = JsVal.text roomId ∧ EnteringRoom tr userId roomId
  | .leave room userId => ∃ roomId, room = JsVal.text roomId ∧ LeavingRoom tr userId roomId

/- A run in which every step leaves the directory as it was or does one operation, which
was allowed by then. -/
inductive History : List (World × Event) → World → Prop
  | start : History [] World.initial
  | idle {tr : List (World × Event)} {w v : World} (e : Event) (h : History tr w)
      (same : directoryOf v.db = directoryOf w.db) : History (tr ++ [(w, e)]) v
  | change {tr : List (World × Event)} {w v : World} (e : Event) (op : Directory.Op)
      (h : History tr w) (allowed : Allowed tr w op)
      (done : directoryOf v.db = (directoryOf w.db).apply op) : History (tr ++ [(w, e)]) v

theorem Performs.allowed {tr : List (World × Event)} {w : World} {p : Pid} {c : Call}
    {op : Directory.Op} (h : Performs c op) (hc : c ∈ (w.procs p).calls) (hw : WF w)
    (hg : Grounded tr w) (ht : Caused tr w) : Allowed tr w op := by
  have hcause := ht.calls p c hc
  cases h with
  | login l s hs =>
    have hok : Local w.own p l.user := hw.calls p _ hc
    refine ⟨?_, p, ?_, hok.1.2⟩
    · rw [hs]
      exact hg.asked p _ l hc rfl
    · rw [hs]
      exact hok.1.1
  | logout user s hs => exact ⟨p, user, rfl, hs.symm, hcause⟩
  | count user hd => exact hcause.1
  | create n hd => exact ⟨n, rfl, hcause⟩
  | close room hd => exact ⟨room, rfl, hcause⟩
  | join user room hd => exact ⟨room, rfl, hcause⟩
  | leave user room hd => exact ⟨room, rfl, hcause⟩

theorem Executed.directory {w v : World} {e : Event} {p : Pid} {c : Call} {r : Store.Reply}
    (h : Executed w v e p c r) (hw : WF w) :
    directoryOf v.db = directoryOf w.db ∨
      ∃ op, Performs c op ∧ directoryOf v.db = (directoryOf w.db).apply op := by
  have hok := hw.calls p c h.mem_calls
  have hshape : ∀ user, UserOf w.own p user → IsSocketId user.socketId :=
    fun user hu => hw.shape _ (hw.ids p _ hu.1)
  rcases h.db with ⟨order, _, hdb, _⟩ | ⟨message, _, hdb, _⟩
  · rw [hdb]
    refine directory_run hw.db c ?_ ?_
    · rintro l rfl
      exact hshape l.user hok.1
    · rintro user rfl
      exact hshape user hok
  · exact Or.inl (by rw [hdb])

theorem directoryOf_initial : directoryOf World.initial.db = .empty := by
  refine Directory.ext rfl rfl ?_ ?_
  · ext room
    simp [directoryOf, Directory.empty, World.initial, Table.get]
  · funext room
    simp [directoryOf, Directory.empty, World.initial, Table.get, members, Store.membersOf]

theorem directory_path {tr : List (World × Event)} {w : World}
    (h : Run.Path step World.initial tr w) : History tr w := by
  induction h with
  | nil => exact .start
  | snoc e hpath hs ih =>
    obtain ⟨hw, hg⟩ := grounded_path hpath
    rcases step_cases _ _ e hs with ⟨p, c, r, hx⟩ | ⟨p, i, x, hx⟩
    · rcases hx.directory hw with hsame | ⟨op, hop, hset⟩
      · exact ih.idle e hsame
      · exact ih.change e op (hop.allowed hx.mem_calls hw hg (caused_path hpath)) hset
    · exact ih.idle e (by rw [hx.db])

/-! ### What stands in the directory -/

section

variable {tr : List (World × Event)} {w : World}

theorem History.session (h : History tr w) {u : Str} {s : SocketId} {server : AppInfo}
    (hs : (directoryOf w.db).sessions u s = some server) : LoginAsked tr s.1 u := by
  induction h with
  | start => cases hs
  | idle e _ same ih =>
    rw [same] at hs
    exact (ih hs).append _
  | change e op _ allowed done ih =>
    rw [done] at hs
    cases op with
    | register u' s' server' =>
      simp only [Directory.apply, Directory.setSession] at hs
      split at hs
      · next heq =>
        rw [heq.1, heq.2]
        exact allowed.1.append _
      · exact (ih hs).append _
    | unregister u' s' =>
      simp only [Directory.apply, Directory.setSession] at hs
      split at hs
      · cases hs
      · exact (ih hs).append _
    | _ => exact (ih hs).append _

theorem History.room (h : History tr w) {room : Str} (hr : room ∈ (directoryOf w.db).rooms) :
    ∃ n, room = natText n ∧ Creating tr n := by
  have later : ∀ {tr : List (World × Event)} (a : World × Event),
      (∃ n, room = natText n ∧ Creating tr n) → ∃ n, room = natText n ∧ Creating (tr ++ [a]) n := by
    rintro tr a ⟨n, hn, hc⟩
    exact ⟨n, hn, hc.append _⟩
  induction h with
  | start =>
    rw [directoryOf_initial] at hr
    cases hr
  | idle e _ same ih =>
    rw [same] at hr
    exact later _ (ih hr)
  | change e op _ allowed done ih =>
    rw [done] at hr
    cases op with
    | openRoom room' =>
      rcases hr with rfl | hr
      · exact later _ allowed
      · exact later _ (ih hr)
    | closeRoom room' => exact later _ (ih hr.1)
    | _ => exact later _ (ih hr)

theorem History.member (h : History tr w) {room u : Str} (hm : u ∈ (directoryOf w.db).members room) :
    ∃ roomId, room = JsVal.text roomId ∧ EnteringRoom tr u roomId := by
  have later : ∀ {tr : List (World × Event)} (a : World × Event),
      (∃ roomId, room = JsVal.text roomId ∧ EnteringRoom tr u roomId) →
        ∃ roomId, room = JsVal.text roomId ∧ EnteringRoom (tr ++ [a]) u roomId := by
    rintro tr a ⟨roomId, hroom, he⟩
    exact ⟨roomId, hroom, he.append _⟩
  induction h with
  | start =>
    rw [directoryOf_initial] at hm
    cases hm
  | idle e _ same ih =>
    rw [same] at hm
    exact later _ (ih hm)
  | change e op _ allowed done ih =>
    rw [done] at hm
    cases op with
    | closeRoom room' =>
      simp only [Directory.apply, Directory.setMembers] at hm
      split at hm
      · cases hm
      · exact later _ (ih hm)
    | join room' u' =>
      simp only [Directory.apply, Directory.setMembers] at hm
      split at hm
      · next heq =>
        subst heq
        rcases hm with rfl | hm
        · exact later _ allowed
        · exact later _ (ih hm)
      · exact later _ (ih hm)
    | leave room' u' =>
      simp only [Directory.apply, Directory.setMembers] at hm
      split at hm
      · next heq =>
        subst heq
        exact later _ (ih hm.1)
      · exact later _ (ih hm)
    | _ => exact later _ (ih hm)

end

/- The run has built its directory up from nothing by requests, and every entry in it by
its own. -/
structure BuiltByRequests (tr : List (World × Event)) (w : World) : Prop where
  empty : directoryOf World.initial.db = .empty
  history : History tr w
  sessions : ∀ u s server, (directoryOf w.db).sessions u s = some server → LoginAsked tr s.1 u
  rooms : ∀ room ∈ (directoryOf w.db).rooms, ∃ n, room = natText n ∧ Creating tr n
  members : ∀ room, ∀ u ∈ (directoryOf w.db).members room,
    ∃ roomId, room = JsVal.text roomId ∧ EnteringRoom tr u roomId

/-- What the servers share is at all times the result of operations that somebody has
asked for, one at most in a step; nobody is logged in, no room is open and nobody is in a
room without having asked for it. -/
theorem directory_built_by_requests {tr : List (World × Event)} {w : World}
    (h : Run.Path step World.initial tr w) : BuiltByRequests tr w := by
  have hist := directory_path h
  exact ⟨directoryOf_initial, hist, fun _ _ _ => hist.session, fun _ => hist.room,
    fun _ _ => hist.member⟩

/- A has opened a room and entered it. -/
theorem joined_room_built :
    BuiltByRequests (Run.steps step World.initial joinedTrace)
        (Run.ends step World.initial joinedTrace) ∧
      ['u'] ∈ (directoryOf (Run.ends step World.initial joinedTrace).db).members ['1'] ∧
      (directoryOf (Run.ends step World.initial joinedTrace).db).lastRoom = 1 := by
  obtain ⟨hrun, hmember, hlast⟩ : (Run.runs step World.initial joinedTrace).isSome = true ∧
      ['u'] ∈ members (Run.ends step World.initial joinedTrace).db ['1'] ∧
      maxId (Run.ends step World.initial joinedTrace).db = 1 := by
    decide +kernel
  exact ⟨directory_built_by_requests (Run.path_ends joinedTrace hrun), hmember, hlast⟩

end NodeServer

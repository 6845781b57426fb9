import NodeServer.Proof.Notices
import NodeServer.Proof.Identity
import NodeServer.Proof.Announce

/-! # Notice numbers

Every `User` object counts the notices sent to it. Its process counts in the loop
of `NoticeSender.send` and in the listener for forwarded notices, while lookups
hold on to objects across many replies: the ids an object is sent are still
consecutive from 0, because an object whose websocket has failed once is never
written to again and no two objects share a counter. -/

namespace NodeServer

/-! ### The notice object -/

/- The object of a notice, with the id the last local recipient left in
`obj.noticeData`. -/
structure NoticeObj where
  id : ℕ
  notice : Notice

/- One turn of the loop as the source has it, on the shared notice object: its id
is set to `user.noticeId++` and the object is written. -/
def Proc.sendShared (p : Pid) (a : NoticeObj × Proc) (user : User) : NoticeObj × Proc :=
  if user.appInfo = appInfo p then
    let obj : NoticeObj := { a.1 with id := a.2.noticeId user.ref }
    (obj, (a.2.bumpNotice user).noticeSend obj.id obj.notice user)
  else (a.1, a.2.emit ⟨user.appInfo, user.socketId, a.1.notice⟩)

theorem sendShared_snd (p : Pid) (a : NoticeObj × Proc) (user : User) :
    (Proc.sendShared p a user).2 = a.2.sendOne p a.1.notice user ∧
      (Proc.sendShared p a user).1.notice = a.1.notice := by
  unfold Proc.sendShared Proc.sendOne
  by_cases hl : user.appInfo = appInfo p
  · simp [hl]
  · simp [hl]

/- The object is serialised in the turn that sets its id. -/
theorem sendShared_foldl (p : Pid) (userList : List User) (a : NoticeObj × Proc) :
    (userList.foldl (Proc.sendShared p) a).2 = a.2.sendAll p a.1.notice userList := by
  induction userList generalizing a with
  | nil => rfl
  | cons user userList ih =>
    obtain ⟨hsnd, hnotice⟩ := sendShared_snd p a user
    rw [List.foldl_cons, ih, hsnd, hnotice]
    rfl

/-! ### The ids sent to an object -/

def Frame.noticeId : Frame → ℕ
  | .notice id _ _ => id
  | .respond _ => 0

/- The ids written for the object `ref`, in order. -/
def idsOf (ref : ℕ) (ws : List (User × Frame)) : List ℕ :=
  (ws.filter fun a => a.1.ref = ref).map fun a => a.2.noticeId

theorem idsOf_append (ref : ℕ) (ws ws' : List (User × Frame)) :
    idsOf ref (ws ++ ws') = idsOf ref ws ++ idsOf ref ws' := by
  simp [idsOf]

theorem idsOf_eq_nil {ref : ℕ} {ws : List (User × Frame)} (h : ∀ a ∈ ws, a.1.ref ≠ ref) :
    idsOf ref ws = [] := by
  simpa [idsOf] using h

/- From `x` to `y` the object of `user` is sent `ws` and counts them. -/
structure Counts (user : User) (x y : Proc) (ws : List (User × Frame)) : Prop where
  ids : idsOf user.ref ws = List.range' (x.noticeId user.ref) (idsOf user.ref ws).length
  counter : y.noticeId user.ref = x.noticeId user.ref + (idsOf user.ref ws).length

theorem Counts.none {user : User} {x y : Proc} {ws : List (User × Frame)}
    (hws : idsOf user.ref ws = []) (h : y.noticeId user.ref = x.noticeId user.ref) :
    Counts user x y ws := by
  refine ⟨?_, ?_⟩
  · rw [hws]
    rfl
  · rw [hws, h]
    rfl

theorem Counts.one {user : User} {x y : Proc} {frame : Frame}
    (hid : frame.noticeId = x.noticeId user.ref)
    (h : y.noticeId user.ref = x.noticeId user.ref + 1) : Counts user x y [(user, frame)] := by
  have hids : idsOf user.ref [(user, frame)] = [x.noticeId user.ref] := by simp [idsOf, hid]
  refine ⟨?_, ?_⟩
  · rw [hids]
    rfl
  · rw [hids, h]
    rfl

theorem Counts.trans {user : User} {x y z : Proc} {ws ws' : List (User × Frame)}
    (h : Counts user x y ws) (k : Counts user y z ws') : Counts user x z (ws ++ ws') := by
  refine ⟨?_, ?_⟩
  · rw [idsOf_append, List.length_append, ← List.range'_append_1, ← h.counter, ← h.ids, ← k.ids]
  · rw [idsOf_append, List.length_append, k.counter, h.counter, Nat.add_assoc]

theorem wsSend_noticeId {x y : Proc} {s : Str} {frame : Frame} (h : x.wsSend s frame = some y) :
    y.noticeId = x.noticeId ∧ y.nextRef = x.nextRef := by
  unfold Proc.wsSend at h
  split at h
  · cases h
    exact ⟨rfl, rfl⟩
  · cases h

theorem bumpNotice_self (x : Proc) (user : User) :
    (x.bumpNotice user).noticeId user.ref = x.noticeId user.ref + 1 := if_pos rfl

theorem bumpNotice_ne (x : Proc) (user : User) {r : ℕ} (hr : r ≠ user.ref) :
    (x.bumpNotice user).noticeId r = x.noticeId r := if_neg hr

/- A turn of the loop counts for its own user only. -/
theorem sendOne_noticeId (p : Pid) (notice : Notice) (u : User) (x : Proc) (r : ℕ)
    (hr : r ≠ u.ref) : (x.sendOne p notice u).noticeId r = x.noticeId r := by
  rcases sendOne_turn p notice u x with ⟨_, hsend⟩ | ⟨_, _, hout⟩ | ⟨_, hemit⟩
  · rw [(wsSend_noticeId hsend).1]
    exact bumpNotice_ne x u hr
  · rw [hout]
    exact bumpNotice_ne x u hr
  · rw [hemit]
    rfl

theorem sendOne_nextRef (p : Pid) (notice : Notice) (u : User) (x : Proc) :
    (x.sendOne p notice u).nextRef = x.nextRef := by
  rcases sendOne_turn p notice u x with ⟨_, hsend⟩ | ⟨_, _, hout⟩ | ⟨_, hemit⟩
  · exact (wsSend_noticeId hsend).2
  · rw [hout]
    rfl
  · rw [hemit]
    rfl

theorem Proc.Writes.sendOne {p : Pid} {x : Proc} {user : User} (h : x.Writes p user) (notice : Notice)
    (u : User) : (x.sendOne p notice u).Writes p user :=
  ⟨h.1, h.2.1, by rw [(sendOne_spec p notice u x).ws]; exact h.2.2⟩

theorem sendOne_counts {p : Pid} {x : Proc} {user : User} (h : x.Writes p user) (notice : Notice)
    (u : User) (hu : u.ref = user.ref → u = user) :
    Counts user x (x.sendOne p notice u)
      (if x.Writes p u then [(u, .notice (x.noticeId u.ref) notice none)] else []) := by
  by_cases href : u.ref = user.ref
  · obtain rfl := hu href
    rw [if_pos h]
    rcases sendOne_turn p notice u x with ⟨_, hsend⟩ | ⟨_, hdead, _⟩ | ⟨hl, _⟩
    · refine Counts.one rfl ?_
      rw [(wsSend_noticeId hsend).1]
      exact bumpNotice_self x u
    · exact absurd h.2 hdead
    · exact absurd h.1 hl
  · refine Counts.none ?_ (sendOne_noticeId p notice u x _ fun heq => href heq.symm)
    apply idsOf_eq_nil
    intro a ha
    split at ha
    · rw [List.mem_singleton.mp ha]
      exact href
    · cases ha

/- The loop, for a user it can write to. -/
theorem sendAll_counts {p : Pid} {x : Proc} {user : User} (h : x.Writes p user) (notice : Notice)
    (userList : List User) (hsame : ∀ u ∈ userList, u.ref = user.ref → u = user) :
    Counts user x (x.sendAll p notice userList) (Proc.noticesSent p notice userList x) := by
  induction userList generalizing x with
  | nil => exact Counts.none rfl rfl
  | cons u userList ih =>
    have hone := sendOne_counts h notice u (hsame u (List.mem_cons_self ..))
    exact hone.trans (ih (h.sendOne notice u) fun v hv => hsame v (List.mem_cons_of_mem _ hv))

/-! ### Objects -/

def Call.users (c : Call) : List User := c.found ++ (c.login.map LoginReq.user).toList

/- The objects a process holds on to. -/
def Proc.Holds (x : Proc) (user : User) : Prop :=
  (∃ s, x.userList.get s = some user) ∨ ∃ c ∈ x.calls, user ∈ c.users

/- The object an input creates. -/
def Proc.created (p : Pid) (x : Proc) : Input → Option User
  | .message s req now =>
    match getRouterByName req.route, req.userId, x.getUserWithSocket s with
    | some (.handler .login), some userId, none =>
      some (createUserWithLogin p x.nextRef userId s
        (((x.conns.get s).map Conn.connectTtime).getD []) (natText now))
    | _, _, _ => none
  | .reply (.lookupHash _ _ _ _) (.hash res) =>
    match x.getUserWithSocket (fieldOf res DBModelKeys.SocketIdKey) with
    | some _ => none
    | none => some (createUserWithRedis x.nextRef res)
  | _ => none

theorem getUserWithRedis_cases (p : Pid) (x : Proc) (key : Str) (rest : List Str)
    (userList : List User) (next : LookupFor) (res : List (Str × Str)) :
    (∃ s, x.userList.get s = some (x.getUserWithRedis res)) ∨
      x.created p (.reply (.lookupHash key rest userList next) (.hash res)) =
        some (x.getUserWithRedis res) := by
  cases hu : x.getUserWithSocket (fieldOf res DBModelKeys.SocketIdKey) with
  | some user =>
    refine Or.inl ⟨fieldOf res DBModelKeys.SocketIdKey, ?_⟩
    simp only [Proc.getUserWithRedis, hu]
    exact hu
  | none =>
    right
    simp only [Proc.created, Proc.getUserWithRedis, hu]

/- The objects in the calls of an input. -/
def FromInput (p : Pid) (i : Input) (x : Proc) (user : User) : Prop :=
  (∃ c r, i = .reply c r ∧ user ∈ c.users) ∨ (∃ s, x.userList.get s = some user) ∨
    x.created p i = some user

theorem FromInput.resolved {p : Pid} {i : Input} {x : Proc} {next : LookupFor}
    {userList : List User} {l : LoginReq} (h : Resolves i x next userList)
    (hl : next.login = some l) : FromInput p i x l.user := by
  rcases h with ⟨userId, r, rfl, _, _⟩ | ⟨key, found, res, rfl, _⟩
  · exact Or.inl ⟨_, _, rfl, by simp [Call.users, Call.login, hl]⟩
  · exact Or.inl ⟨_, _, rfl, by simp [Call.users, Call.login, hl]⟩

theorem issued_users {p : Pid} {i : Input} {x : Proc} {c : Call} {user : User}
    (hc : c ∈ x.issued p i) (ho : Origin p i x c) (hu : user ∈ c.users) : FromInput p i x user := by
  cases ho with
  | loginStart s req now userId connectTime asks given fresh =>
    obtain ⟨rfl, hroute⟩ := asks
    have fresh' : x.getUserWithSocket s = none := fresh
    simp only [Proc.issued, hroute, Proc.requestCalls, given, fresh', List.mem_singleton] at hc
    rw [hc] at hu
    have hu : user = _ := List.mem_singleton.mp hu
    refine Or.inr (Or.inr ?_)
    simp only [Proc.created, hroute, given, fresh', hu]
  | loginAgain l notice userList resolves =>
    rw [List.mem_singleton.mp hu]
    exact FromInput.resolved resolves rfl
  | loginSet l userList resolves =>
    rw [List.mem_singleton.mp hu]
    exact FromInput.resolved resolves rfl
  | hashFirst userId next key rest replied =>
    exact Or.inl ⟨_, _, replied, hu⟩
  | hashNext key₀ next key rest userList res replied =>
    subst replied
    have hu : user ∈ (userList ++ [x.getUserWithRedis res]) ++ _ := hu
    rcases List.mem_append.mp hu with hu | hu
    · rcases List.mem_append.mp hu with hu | hu
      · exact Or.inl ⟨_, _, rfl, List.mem_append_left _ hu⟩
      · rw [List.mem_singleton.mp hu]
        exact Or.inr (getUserWithRedis_cases p x key₀ (key :: rest) userList next res)
    · exact Or.inl ⟨_, _, rfl, List.mem_append_right _ hu⟩
  | _ => cases hu

theorem sendAll_nextRef (p : Pid) (notice : Notice) (userList : List User) (x : Proc) :
    (x.sendAll p notice userList).nextRef = x.nextRef := by
  induction userList generalizing x with
  | nil => rfl
  | cons u userList ih => exact (ih (x.sendOne p notice u)).trans (sendOne_nextRef p notice u x)

theorem onPacket_nextRef (packet : Packet) (x : Proc) : (x.onPacket packet).nextRef = x.nextRef := by
  cases hu : x.userList.get packet.socketId with
  | none =>
    have hu' : x.getUserWithSocket packet.socketId = none := hu
    simp only [Proc.onPacket, hu']
  | some user =>
    rcases onPacket_turn packet x user hu with ⟨_, z, hsend, hz⟩ | ⟨_, heq⟩
    · exact hz.nextRef.trans (wsSend_noticeId hsend).2
    · rw [heq]
      rfl

/- A request creates an object when it starts a login. -/
theorem created_message {p : Pid} {x : Proc} {s : Str} {req : Request} {now : ℕ} {user : User}
    (h : x.created p (.message s req now) = some user) :
    ∃ userId, getRouterByName req.route = some (.handler .login) ∧ req.userId = some userId ∧
      x.getUserWithSocket s = none ∧ user.ref = x.nextRef := by
  simp only [Proc.created] at h
  split at h
  · next hroute hid hlogged =>
    cases h
    exact ⟨_, hroute, hid, hlogged, rfl⟩
  · cases h

/- Identities are not used again. -/
theorem counted_nextRef (p : Pid) (i : Input) (x : Proc) :
    x.nextRef ≤ (x.counted p i).nextRef ∧
      ∀ user, x.created p i = some user → user.ref = x.nextRef ∧ x.nextRef < (x.counted p i).nextRef := by
  cases i with
  | message s req now =>
    refine ⟨?_, ?_⟩
    · simp only [Proc.counted]
      split
      · exact Nat.le_succ _
      · exact le_refl _
    · intro user hu
      obtain ⟨userId, hroute, hid, hlogged, href⟩ := created_message hu
      have hcounted : x.counted p (.message s req now) = x.newRef := by
        simp only [Proc.counted, hroute, hid, hlogged]
      rw [hcounted]
      exact ⟨href, Nat.lt_succ_self _⟩
  | reply c r =>
    cases c with
    | lookupHash key rest userList next =>
      cases r with
      | hash res =>
        have hnext : (x.counted p (.reply (.lookupHash key rest userList next) (.hash res))).nextRef =
            x.nextRef + 1 := by
          cases rest with
          | nil =>
            cases next with
            | notice notice after => exact sendAll_nextRef p notice _ x.newRef
            | loginKick | sendMsg => rfl
          | cons key' rest => rfl
        rw [hnext]
        refine ⟨Nat.le_succ _, ?_⟩
        intro user hu
        simp only [Proc.created] at hu
        split at hu
        · cases hu
        · cases hu
          exact ⟨rfl, Nat.lt_succ_self _⟩
      | _ => cases rest <;> exact ⟨le_refl _, fun user hu => by cases hu⟩
    | _ => exact ⟨le_refl _, fun user hu => by cases hu⟩
  | packet packet =>
    refine ⟨?_, fun user hu => by cases hu⟩
    exact le_of_eq (onPacket_nextRef packet x).symm
  | _ => exact ⟨le_refl _, fun user hu => by cases hu⟩

/-! ### One input -/

section

variable {w v : World} {e : Event} {p : Pid} {i : Input} {x : Proc} {user : User}

/- An object a lookup resolves with. -/
theorem FromInput.looked (p : Pid) (x : Proc) {key : Str} {rest : List Str} {userList : List User}
    {next : LookupFor} {res : List (Str × Str)} (hu : user ∈ userList ++ [x.getUserWithRedis res]) :
    FromInput p (.reply (.lookupHash key rest userList next) (.hash res)) x user := by
  rcases List.mem_append.mp hu with hu | hu
  · exact Or.inl ⟨_, _, rfl, List.mem_append_left _ hu⟩
  · rw [List.mem_singleton.mp hu]
    exact Or.inr (getUserWithRedis_cases p x key rest userList next res)

theorem sendAll_noticeId (p : Pid) (notice : Notice) (userList : List User) (x : Proc) (r : ℕ)
    (hr : ∀ u ∈ userList, u.ref ≠ r) : (x.sendAll p notice userList).noticeId r = x.noticeId r := by
  induction userList generalizing x with
  | nil => rfl
  | cons u userList ih =>
    have hu : r ≠ u.ref := fun heq => hr u (List.mem_cons_self ..) heq.symm
    exact (ih (x.sendOne p notice u) fun v hv => hr v (List.mem_cons_of_mem _ hv)).trans
      (sendOne_noticeId p notice u x r hu)

theorem onPacket_noticeId_ne (packet : Packet) (x : Proc) (r : ℕ)
    (hr : ∀ s u, x.userList.get s = some u → u.ref ≠ r) :
    (x.onPacket packet).noticeId r = x.noticeId r := by
  cases hu : x.userList.get packet.socketId with
  | none =>
    have hu' : x.getUserWithSocket packet.socketId = none := hu
    simp only [Proc.onPacket, hu']
  | some user =>
    have hne : r ≠ user.ref := fun heq => hr _ user hu heq.symm
    rcases onPacket_turn packet x user hu with ⟨_, z, hsend, hz⟩ | ⟨_, heq⟩
    · rw [hz.noticeId, (wsSend_noticeId hsend).1]
      exact bumpNotice_ne x user hne
    · rw [heq]
      exact bumpNotice_ne x user hne

/- An input counts for objects of its own only. -/
theorem counted_noticeId (p : Pid) (i : Input) (x : Proc) (r : ℕ)
    (hr : ∀ u, FromInput p i x u → u.ref ≠ r) : (x.counted p i).noticeId r = x.noticeId r := by
  cases i with
  | message s req now =>
    simp only [Proc.counted]
    split <;> rfl
  | reply c r' =>
    cases c with
    | lookupHash key rest userList next =>
      cases r' with
      | hash res =>
        cases rest with
        | nil =>
          cases next with
          | notice notice after =>
            exact sendAll_noticeId p notice _ x.newRef r fun u hu => hr u (FromInput.looked p x hu)
          | loginKick | sendMsg => rfl
        | cons key' rest => rfl
      | _ => cases rest <;> rfl
    | _ => rfl
  | packet packet =>
    exact onPacket_noticeId_ne packet x r fun s u hu => hr u (Or.inr (Or.inl ⟨s, hu⟩))
  | _ => rfl

/- The object of a login is not written to by the request that creates it, and an
image of a record never is. -/
theorem created_websocket (h : x.created p i = some user) (hws : user.websocket = true) :
    x.noticesOf p i = [] ∧ (x.counted p i).noticeId = x.noticeId := by
  cases i with
  | message s req now =>
    refine ⟨rfl, ?_⟩
    simp only [Proc.counted]
    split <;> rfl
  | reply c r =>
    cases c with
    | lookupHash key rest userList next =>
      cases r with
      | hash res =>
        simp only [Proc.created] at h
        split at h
        · cases h
        · cases h
          cases hws
      | _ => cases h
    | _ => cases h
  | _ => cases h

/- What an input writes, for the users it writes to. -/
theorem noticesOf_mem (hlocal : ∀ s u, x.userList.get s = some u → u.appInfo = appInfo p ∧
      u.websocket = true) {a : User × Frame} (ha : a ∈ x.noticesOf p i) :
    FromInput p i x a.1 ∧ x.Writes p a.1 := by
  cases i with
  | reply c r =>
    cases c with
    | lookupHash key rest userList next =>
      cases r with
      | hash res =>
        cases rest with
        | nil =>
          cases next with
          | notice notice after =>
            obtain ⟨hmem, hw⟩ := noticesSent_mem ha
            exact ⟨FromInput.looked p x hmem, hw⟩
          | loginKick | sendMsg => cases ha
        | cons key' rest => cases ha
      | _ => cases rest <;> cases next <;> cases ha
    | _ => cases ha
  | packet packet =>
    have ha : a ∈ x.packetNotices packet := ha
    unfold Proc.packetNotices at ha
    split at ha
    · cases ha
    · next u hu =>
      split at ha
      · next hopen =>
        rw [List.mem_singleton.mp ha]
        obtain ⟨happ, hws⟩ := hlocal _ u hu
        exact ⟨Or.inr (Or.inl ⟨_, hu⟩), happ, hws, hopen⟩
      · cases ha
  | _ => cases ha

/- An input numbers what it writes for an object. -/
theorem counted_counts (hw : x.Writes p user)
    (hsame : ∀ u, FromInput p i x u → u.ref = user.ref → u = user) :
    Counts user x (x.counted p i) (x.noticesOf p i) := by
  cases i with
  | message s req now =>
    refine Counts.none rfl ?_
    simp only [Proc.counted]
    split <;> rfl
  | reply c r =>
    cases c with
    | lookupHash key rest userList next =>
      cases r with
      | hash res =>
        cases rest with
        | nil =>
          cases next with
          | notice notice after =>
            have hw' : x.newRef.Writes p user := hw
            have hall := sendAll_counts hw' notice (userList ++ [x.getUserWithRedis res])
              fun u hu => hsame u (FromInput.looked p x hu)
            exact ⟨hall.ids, hall.counter⟩
          | loginKick | sendMsg => exact Counts.none rfl rfl
        | cons key' rest => exact Counts.none rfl rfl
      | _ => cases rest <;> cases next <;> exact Counts.none rfl rfl
    | _ => exact Counts.none rfl rfl
  | packet packet =>
    show Counts user x (x.onPacket packet) (x.packetNotices packet)
    unfold Proc.packetNotices
    cases hu : x.getUserWithSocket packet.socketId with
    | none =>
      simp only [Proc.onPacket, hu]
      exact Counts.none rfl rfl
    | some u =>
      dsimp only
      by_cases href : u.ref = user.ref
      · obtain rfl := hsame u (Or.inr (Or.inl ⟨_, hu⟩)) href
        rw [if_pos hw.2.2]
        rcases onPacket_turn packet x u hu with ⟨_, z, hsend, hz⟩ | ⟨hclosed, _⟩
        · refine Counts.one rfl ?_
          rw [hz.noticeId, (wsSend_noticeId hsend).1]
          exact bumpNotice_self x u
        · exact absurd hw.2.2 hclosed
      · have hne : user.ref ≠ u.ref := fun heq => href heq.symm
        refine Counts.none ?_ ?_
        · apply idsOf_eq_nil
          intro a ha
          split at ha
          · rw [List.mem_singleton.mp ha]
            exact href
          · cases ha
        · rcases onPacket_turn packet x u hu with ⟨_, z, hsend, hz⟩ | ⟨_, heq⟩
          · rw [hz.noticeId, (wsSend_noticeId hsend).1]
            exact bumpNotice_ne x u hne
          · rw [heq]
            exact bumpNotice_ne x u hne
  | _ => exact Counts.none rfl rfl

end

/-! ### Runs -/

/- Objects a process holds or has written to. -/
def Proc.Seen (x : Proc) (ws : List (User × Frame)) (user : User) : Prop :=
  x.Holds user ∨ ∃ frame, (user, frame) ∈ ws

/- The notices `ws` a process has written are numbered, and it goes on so. -/
structure Numbered (x : Proc) (ws : List (User × Frame)) : Prop where
  bound : ∀ user, x.Seen ws user → user.ref < x.nextRef
  same : ∀ a b, x.Seen ws a → x.Seen ws b → a.ref = b.ref → a = b
  unused : ∀ r, x.nextRef ≤ r → x.noticeId r = 0
  count : ∀ user, x.Holds user → x.Sendable user →
    x.noticeId user.ref = (idsOf user.ref ws).length
  ids : ∀ r, idsOf r ws = List.range (idsOf r ws).length
  noticed : ∀ s, x.noticed s = framesFor s ws

theorem Numbered.initial : Numbered Proc.initial [] where
  bound := by
    rintro user ((⟨s, hs⟩ | ⟨c, hc, _⟩) | ⟨frame, hf⟩)
    · cases hs
    · cases hc
    · cases hf
  same := by
    rintro a b ((⟨s, hs⟩ | ⟨c, hc, _⟩) | ⟨frame, hf⟩)
    · cases hs
    · cases hc
    · cases hf
  unused := fun _ _ => rfl
  count := by
    rintro user (⟨s, hs⟩ | ⟨c, hc, _⟩)
    · cases hs
    · cases hc
  ids := fun _ => rfl
  noticed := fun _ => rfl

/- Nothing of the process that is numbered has changed. -/
theorem Numbered.congr {x y : Proc} {ws : List (User × Frame)} (h : Numbered x ws)
    (husers : y.userList = x.userList) (hcalls : y.calls = x.calls) (hconns : y.conns = x.conns)
    (hid : y.noticeId = x.noticeId) (href : y.nextRef = x.nextRef) : Numbered y ws := by
  have hholds : ∀ user, y.Holds user → x.Holds user := by
    intro user hu
    rwa [Proc.Holds, husers, hcalls] at hu
  have hseen : ∀ user, y.Seen ws user → x.Seen ws user :=
    fun user hu => hu.imp (hholds user) id
  refine ⟨?_, ?_, ?_, ?_, h.ids, ?_⟩
  · intro user hu
    rw [href]
    exact h.bound user (hseen user hu)
  · intro a b ha hb
    exact h.same a b (hseen a ha) (hseen b hb)
  · intro r hr
    rw [href] at hr
    rw [hid]
    exact h.unused r hr
  · intro user hu hsend
    have hsend' : x.Sendable user := by
      rwa [Proc.Sendable, Proc.ws, hconns] at hsend
    rw [hid]
    exact h.count user (hholds user hu) hsend'
  · intro s
    rw [Proc.noticed, hconns]
    exact h.noticed s

section

variable {w v : World} {e : Event} {p : Pid} {i : Input} {x : Proc} {user : User}

theorem WF.holds_local (hw : WF w) (h : (w.procs p).Holds user) (hws : user.websocket = true) :
    Local w.own p user := by
  have found : ∀ u, FoundOk w.own p u → u.websocket = true → Local w.own p u := by
    rintro u ⟨q, hu, hq⟩ hu'
    obtain rfl := hq hu'
    exact ⟨hu, hu'⟩
  rcases h with ⟨s, hs⟩ | ⟨c, hc, hu⟩
  · exact (hw.users p s user hs).2
  · rcases List.mem_append.mp hu with hu | hu
    · cases c with
      | lookupHash key rest userList next =>
        exact found user ((hw.calls p _ hc).2.1 user hu) hws
      | _ => cases hu
    · obtain ⟨l, hl, rfl⟩ : ∃ l, c.login = some l ∧ l.user = user := by
        simpa [Option.mem_def] using hu
      exact hw.inFlight_local ⟨⟨c, hc, hl⟩, rfl⟩

theorem Handled.fromInput (h : Handled w v e p i x) (hu : FromInput p i x user) :
    (w.procs p).Holds user ∨ x.created p i = some user := by
  rcases hu with ⟨c, r, hi, hu⟩ | ⟨s, hs⟩ | hc
  · exact Or.inl (Or.inr ⟨c, List.mem_append_left _ (List.mem_map_of_mem (h.reply_mem c r hi)), hu⟩)
  · rw [h.userList] at hs
    exact Or.inl (Or.inl ⟨s, hs⟩)
  · exact Or.inr hc

theorem Handled.holds (h : Handled w v e p i x) (hw : WF w) (hu : (v.procs p).Holds user) :
    (w.procs p).Holds user ∨ x.created p i = some user := by
  obtain ⟨hbefore, hafter⟩ := h.calls_issued hw
  rcases hu with ⟨s, hs⟩ | ⟨c, hc, hu⟩
  · obtain ⟨news, outs, heff⟩ := h.effect hw
    rcases heff.users s with heq | ⟨hnone, _⟩ | ⟨l, r, hi, _, hnew⟩
    · rw [heq, h.userList] at hs
      exact Or.inl (Or.inl ⟨s, hs⟩)
    · rw [hnone] at hs
      cases hs
    · rw [hnew] at hs
      cases hs
      exact h.fromInput (Or.inl ⟨_, r, hi, List.mem_singleton.mpr rfl⟩)
  · rw [hafter] at hc
    rcases List.mem_append.mp hc with hc | hc
    · refine Or.inl (Or.inr ⟨c, ?_, hu⟩)
      rw [hbefore]
      exact List.mem_append_right _ hc
    · exact h.fromInput (issued_users hc (h.issued_origin hw c hc) hu)

/- An object whose websocket is open was there before, with its websocket open,
or is created by the input. -/
theorem Handled.sendable (h : Handled w v e p i x) (hw : WF w) (hu : (v.procs p).Holds user)
    (hsend : (v.procs p).Sendable user) :
    ((w.procs p).Holds user ∧ x.Writes p user) ∨ x.created p i = some user := by
  rcases h.holds hw hu with hu | hc
  · obtain ⟨⟨hown, happ⟩, _⟩ := hw.holds_local hu hsend.1
    refine Or.inl ⟨hu, happ, hsend.1, ?_⟩
    rw [Proc.ws, h.conns]
    rcases h.open_back hw p user.socketId hsend.2 with hopen | ⟨_, now, hi⟩
    · exact hopen
    · exact absurd (hw.ids p _ hown) (h.fresh _ now hi).1
  · exact Or.inr hc

theorem Handled.quiet (h : Handled w v e p i x) (hw : WF w) :
    Quiet (x.counted p i) (v.procs p) ∧ Notifies x (v.procs p) (x.noticesOf p i) := by
  have hfresh : ∀ s now, i = .connect s now → x.conns.get s = none := by
    intro s now hi
    by_contra hc
    rw [h.conns] at hc
    exact (h.fresh s now hi).1 (hw.ids p s hc)
  rw [h.after]
  exact ⟨react_quiet p i x hfresh, react_notifies p i x hfresh⟩

theorem Handled.noticesOf_mem (h : Handled w v e p i x) (hw : WF w) {a : User × Frame}
    (ha : a ∈ x.noticesOf p i) : (w.procs p).Holds a.1 ∧ x.Writes p a.1 := by
  have hlocal : ∀ s u, x.userList.get s = some u → u.appInfo = appInfo p ∧ u.websocket = true := by
    intro s u hu
    rw [h.userList] at hu
    obtain ⟨_, ⟨_, happ⟩, hws⟩ := hw.users p s u hu
    exact ⟨happ, hws⟩
  obtain ⟨hfrom, hwrites⟩ := NodeServer.noticesOf_mem hlocal ha
  refine ⟨?_, hwrites⟩
  rcases h.fromInput hfrom with hu | hc
  · exact hu
  · rw [(created_websocket hc hwrites.2.1).1] at ha
    cases ha

/- A created object takes the next identity. -/
theorem Handled.created_ref (h : Handled w v e p i x) (hw : WF w) :
    (w.procs p).nextRef ≤ (v.procs p).nextRef ∧ ∀ a, x.created p i = some a →
      a.ref = (w.procs p).nextRef ∧ (w.procs p).nextRef < (v.procs p).nextRef := by
  have hcounted := counted_nextRef p i x
  rw [← (h.quiet hw).1.nextRef, h.nextRef] at hcounted
  exact hcounted

theorem Handled.known_bound (h : Handled w v e p i x) (hw : WF w) {ws : List (User × Frame)}
    (hn : Numbered (w.procs p) ws) {a : User}
    (ha : (w.procs p).Seen ws a ∨ x.created p i = some a) : a.ref < (v.procs p).nextRef := by
  obtain ⟨hle, hcreated⟩ := h.created_ref hw
  rcases ha with ha | ha
  · exact lt_of_lt_of_le (hn.bound a ha) hle
  · rw [(hcreated a ha).1]
    exact (hcreated a ha).2

/- The created object has an identity no object has had before. -/
theorem Handled.known_same (h : Handled w v e p i x) (hw : WF w) {ws : List (User × Frame)}
    (hn : Numbered (w.procs p) ws) {a b : User}
    (ha : (w.procs p).Seen ws a ∨ x.created p i = some a)
    (hb : (w.procs p).Seen ws b ∨ x.created p i = some b) (href : a.ref = b.ref) : a = b := by
  obtain ⟨-, hcreated⟩ := h.created_ref hw
  rcases ha with ha | ha <;> rcases hb with hb | hb
  · exact hn.same a b ha hb href
  · have hlt := hn.bound a ha
    rw [href, (hcreated b hb).1] at hlt
    exact absurd hlt (lt_irrefl _)
  · have hlt := hn.bound b hb
    rw [← href, (hcreated a ha).1] at hlt
    exact absurd hlt (lt_irrefl _)
  · rw [ha] at hb
    exact Option.some.inj hb

/-- One input keeps the numbering. -/
theorem Handled.numbered (h : Handled w v e p i x) (hw : WF w)
    (hid : x.noticeId = (w.procs p).noticeId) {ws : List (User × Frame)}
    (hn : Numbered (w.procs p) ws) : Numbered (v.procs p) (ws ++ x.noticesOf p i) := by
  obtain ⟨hquiet, hnotifies⟩ := h.quiet hw
  obtain ⟨hle, hcreated⟩ := h.created_ref hw
  have hseen : ∀ a, (v.procs p).Seen (ws ++ x.noticesOf p i) a →
      (w.procs p).Seen ws a ∨ x.created p i = some a := by
    rintro a (ha | ⟨frame, ha⟩)
    · exact (h.holds hw ha).imp Or.inl id
    · rcases List.mem_append.mp ha with ha | ha
      · exact Or.inl (Or.inr ⟨frame, ha⟩)
      · exact Or.inl (Or.inl (h.noticesOf_mem hw ha).1)
  have hfrom : ∀ a, FromInput p i x a → (w.procs p).Seen ws a ∨ x.created p i = some a :=
    fun a ha => (h.fromInput ha).imp Or.inl id
  have hcounts : ∀ user, (w.procs p).Holds user → x.Writes p user →
      Counts user x (x.counted p i) (x.noticesOf p i) := fun user hu hwr =>
    counted_counts hwr fun a ha href => h.known_same hw hn (hfrom a ha) (Or.inl (Or.inl hu)) href
  have hwritten : ∀ user, (w.procs p).Holds user → x.Writes p user →
      x.noticeId user.ref = (idsOf user.ref ws).length := by
    intro user hu hwr
    have hsend : (w.procs p).Sendable user := by
      obtain ⟨_, hws, hopen⟩ := hwr
      rw [Proc.ws, h.conns] at hopen
      exact ⟨hws, hopen⟩
    rw [hid]
    exact hn.count user hu hsend
  refine ⟨fun a ha => h.known_bound hw hn (hseen a ha),
    fun a b ha hb => h.known_same hw hn (hseen a ha) (hseen b hb), ?_, ?_, ?_, ?_⟩
  · intro r hr
    rw [hquiet.noticeId, counted_noticeId p i x r, hid]
    · exact hn.unused r (le_trans hle hr)
    · intro a ha href
      have hlt := h.known_bound hw hn (hfrom a ha)
      omega
  · intro user hu hsend
    rw [hquiet.noticeId, idsOf_append, List.length_append]
    rcases h.sendable hw hu hsend with ⟨hu, hwr⟩ | hc
    · rw [(hcounts user hu hwr).counter, hwritten user hu hwr]
    · obtain ⟨hnone, hcount⟩ := created_websocket hc hsend.1
      have href := (hcreated user hc).1
      have hfresh : idsOf user.ref ws = [] := by
        apply idsOf_eq_nil
        intro a ha heq
        have hlt := hn.bound a.1 (Or.inr ⟨a.2, ha⟩)
        omega
      rw [hcount, hnone, hfresh, hid, hn.unused user.ref (le_of_eq href.symm)]
      rfl
  · intro r
    by_cases hnone : idsOf r (x.noticesOf p i) = []
    · rw [idsOf_append, hnone, List.append_nil]
      exact hn.ids r
    · obtain ⟨a, ha, rfl⟩ : ∃ a ∈ x.noticesOf p i, a.1.ref = r := by
        by_contra hno
        refine hnone (idsOf_eq_nil ?_)
        intro a ha href
        exact hno ⟨a, ha, href⟩
      obtain ⟨hu, hwr⟩ := h.noticesOf_mem hw ha
      have hids := (hcounts a.1 hu hwr).ids
      rw [hwritten a.1 hu hwr] at hids
      rw [idsOf_append, List.length_append, List.range_eq_range', ← List.range'_append_1,
        ← List.range_eq_range', ← hn.ids a.1.ref, Nat.zero_add, ← hids]
  · intro s
    have hconns : x.noticed s = (w.procs p).noticed s := by
      rw [Proc.noticed, h.conns]
      rfl
    rw [hnotifies s, hconns, hn.noticed s, framesFor_append]

end

/- The notices an event makes a process write. -/
def World.noticesOn (w : World) (p : Pid) (e : Event) : List (User × Frame) :=
  match inputOf w e with
  | some (q, i) => if q = p then ((takeOff w e).procs p).noticesOf p i else []
  | none => []

/- The notices a process has written in a run, in order, each with the `User`
object it was written for. -/
def noticesOn (p : Pid) (tr : List (World × Event)) : List (User × Frame) :=
  tr.flatMap fun a => a.1.noticesOn p a.2

theorem takeOff_noticeId (w : World) (e : Event) (p : Pid) :
    ((takeOff w e).procs p).noticeId = (w.procs p).noticeId := by
  cases e with
  | reply q =>
    by_cases hq : p = q
    · subst hq
      simp [takeOff, World.setProc]
    · simp [takeOff, World.setProc, hq]
  | deliver q n p' =>
    by_cases hq : p = q
    · subst hq
      simp [takeOff, World.setProc]
    · simp [takeOff, World.setProc, hq]
  | _ => rfl

theorem execStep_counters {w v : World} {q : Pid} {outcome : Outcome}
    (h : execStep w q outcome = some v) (p : Pid) :
    (v.procs p).noticeId = (w.procs p).noticeId ∧ (v.procs p).nextRef = (w.procs p).nextRef := by
  unfold execStep at h
  split at h
  · cases h
  · obtain ⟨r, _, rfl⟩ := Option.map_eq_some_iff.mp h
    by_cases hq : p = q
    · subst hq
      simp [World.setProc]
    · simp [World.setProc, hq]
  · cases h
    by_cases hq : p = q
    · subst hq
      simp [World.setProc]
    · simp [World.setProc, hq]

theorem step_numbered {w v : World} {e : Event} (hs : step w e = some v) (hw : WF w) (p : Pid)
    {ws : List (User × Frame)} (hn : Numbered (w.procs p) ws) :
    Numbered (v.procs p) (ws ++ w.noticesOn p e) := by
  cases hin : inputOf w e with
  | none =>
    have hnone : w.noticesOn p e = [] := by simp only [World.noticesOn, hin]
    rw [hnone, List.append_nil]
    obtain ⟨q, c, r, hexec⟩ | ⟨q, i, x, hh⟩ := step_cases w v e hs
    · have hcounters : (v.procs p).noticeId = (w.procs p).noticeId ∧
          (v.procs p).nextRef = (w.procs p).nextRef := by
        rcases hexec.db with ⟨order, rfl, _⟩ | ⟨message, rfl, _⟩
        · exact execStep_counters hs p
        · exact execStep_counters hs p
      have hconns : (v.procs p).conns = (w.procs p).conns := by
        by_cases hq : p = q
        · rw [hq, hexec.conns]
        · rw [hexec.others p hq]
      exact hn.congr (hexec.users p) (hexec.calls p) hconns hcounters.1 hcounters.2
    · have hsome := hh.input
      rw [hin] at hsome
      cases hsome
  | some qi =>
    obtain ⟨q, i⟩ := qi
    have hh := handled_takeOff hs hin
    by_cases hq : q = p
    · subst hq
      have hon : w.noticesOn q e = ((takeOff w e).procs q).noticesOf q i := by
        simp only [World.noticesOn, hin, if_true]
      rw [hon]
      exact hh.numbered hw (takeOff_noticeId w e q) hn
    · have hon : w.noticesOn p e = [] := by
        simp only [World.noticesOn, hin, hq, if_false]
      rw [hon, List.append_nil]
      obtain ⟨outbox, hv, _⟩ := hh.others p fun heq => hq heq.symm
      rw [hv]
      exact hn.congr rfl rfl rfl rfl rfl

theorem run_numbered {tr : List (World × Event)} {v : World}
    (hrun : Run.Path step World.initial tr v) (p : Pid) :
    WF v ∧ Numbered (v.procs p) (noticesOn p tr) := by
  refine Run.Path.invariant (fun tr v => WF v ∧ Numbered (v.procs p) (noticesOn p tr))
    ⟨WF.initial, Numbered.initial⟩ ?_ hrun
  rintro tr v e v' ⟨hw, hn⟩ hs
  refine ⟨hw.step hs, ?_⟩
  have happ : noticesOn p (tr ++ [(v, e)]) = noticesOn p tr ++ v.noticesOn p e := by
    simp [noticesOn]
  rw [happ]
  exact step_numbered hs hw p hn

/- The notices process `p` has written in a run from `World.initial` to `v`. -/
structure NoticesNumbered (p : Pid) (tr : List (World × Event)) (v : World) : Prop where
  -- they are all the notice frames there are, on the connections of their users
  written : ∀ s, (v.procs p).noticed s = framesFor s (noticesOn p tr)
  -- `ref` is the identity of a `User` object
  objects : ∀ a ∈ noticesOn p tr, ∀ b ∈ noticesOn p tr, a.1.ref = b.1.ref → a.1 = b.1
  installed : ∀ s user, (v.procs p).userList.get s = some user →
    ∀ a ∈ noticesOn p tr, a.1.ref = user.ref → a.1 = user
  numbered : ∀ ref, idsOf ref (noticesOn p tr) = List.range (idsOf ref (noticesOn p tr)).length
  -- a loop over one notice object writes what a loop over values does
  shared : ∀ (x : Proc) (obj : NoticeObj) (userList : List User),
    (userList.foldl (Proc.sendShared p) (obj, x)).2 = x.sendAll p obj.notice userList

/-- In every run, the notices written for a `User` object are numbered 0, 1, 2, …
without a gap, also past a failing `send`: nothing is written after it. -/
theorem notices_numbered (p : Pid) (tr : List (World × Event)) (v : World)
    (hrun : Run.Path step World.initial tr v) : NoticesNumbered p tr v := by
  obtain ⟨_, hn⟩ := run_numbered hrun p
  refine ⟨hn.noticed, ?_, ?_, hn.ids, fun x obj userList => sendShared_foldl p userList (obj, x)⟩
  · intro a ha b hb
    exact hn.same a.1 b.1 (Or.inr ⟨a.2, ha⟩) (Or.inr ⟨b.2, hb⟩)
  · intro s user hu a ha
    exact hn.same a.1 user (Or.inr ⟨a.2, ha⟩) (Or.inl (Or.inl ⟨s, hu⟩))

def sendMsgOf (p : Pid) (suffix toUserId msg : Str) (now : ℕ) : Event :=
  .message p (socketIdOf suffix) (sendMsgRequest toUserId msg) now

/- B sends A a message, which process 1 forwards, and A sends itself one. -/
def twoMessagesTrace : List Event :=
  sendMsgOf 1 ['B'] ['u'] ['x'] 6 :: served 1 [uniquePattern ['u'] (socketIdOf ['A'])] ++
    served 1 [] ++ served 1 [uniquePattern ['u'] (socketIdOf ['A'])] ++ served 1 [] ++
    .deliver 1 0 0 :: sendMsgOf 0 ['A'] ['u'] ['y'] 7 ::
    served 0 [uniquePattern ['u'] (socketIdOf ['A'])] ++ served 0 [] ++
    served 0 [uniquePattern ['u'] (socketIdOf ['A'])] ++ served 0 []

theorem notices_numbered_both_paths :
    NoticesNumbered 0 (Run.steps step World.initial (twoUsersTrace ++ twoMessagesTrace))
      (Run.ends step World.initial (twoUsersTrace ++ twoMessagesTrace)) ∧
    idsOf 0 (noticesOn 0 (Run.steps step World.initial (twoUsersTrace ++ twoMessagesTrace))) =
      [0, 1] := by
  obtain ⟨hrun, hids⟩ :
      (Run.runs step World.initial (twoUsersTrace ++ twoMessagesTrace)).isSome = true ∧
      idsOf 0 (noticesOn 0 (Run.steps step World.initial (twoUsersTrace ++ twoMessagesTrace))) =
        [0, 1] := by
    decide +kernel
  exact ⟨notices_numbered 0 _ _ (Run.path_ends _ hrun), hids⟩

end NodeServer

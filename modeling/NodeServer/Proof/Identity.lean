import NodeServer.Proof.Live

/-! # One identity per connection

Several logins can be in flight on one connection, because the test for an
earlier login looks at `userList`, which the last callback of a login fills.
While the logins in flight on a connection agree on the user id and start only
on an open socket, everything the system keeps about the connection names one
user. -/

namespace NodeServer

open DBModelKeys

/-! ### Logins in flight -/

/-- A login on connection `s` of `p` is past its check and not answered. -/
def InFlight (w : World) (p : Pid) (s : Str) (l : LoginReq) : Prop :=
  (∃ c ∈ (w.procs p).calls, c.login = some l) ∧ l.user.socketId = s

def Proc.loginsOn (x : Proc) (s : Str) : List LoginReq :=
  (x.calls.filterMap Call.login).filter fun l => l.user.socketId = s

theorem mem_loginsOn (w : World) (p : Pid) (s : Str) (l : LoginReq) :
    l ∈ (w.procs p).loginsOn s ↔ InFlight w p s l := by
  simp [Proc.loginsOn, InFlight, List.mem_filterMap]

instance (w : World) (p : Pid) (s : Str) (P : LoginReq → Prop) [DecidablePred P] :
    Decidable (∀ l, InFlight w p s l → P l) :=
  decidable_of_iff (∀ l ∈ (w.procs p).loginsOn s, P l) (by simp only [mem_loginsOn])

/-- The input is a login request that passes the check for an earlier login. -/
def StartsLogin (i : Input) (x : Proc) (s u : Str) : Prop :=
  ∃ req now, Asks i s .login req now ∧ req.userId = some u ∧ x.userList.get s = none

theorem Resolves.login {i : Input} {x : Proc} {next : LookupFor} {userList : List User}
    (h : Resolves i x next userList) : ∃ c r, i = .reply c r ∧ c.login = next.login := by
  rcases h with ⟨userId, r, hi, _, _⟩ | ⟨key, found, res, hi, _⟩
  · exact ⟨_, _, hi, rfl⟩
  · exact ⟨_, _, hi, rfl⟩

theorem Origin.login {p : Pid} {i : Input} {x : Proc} {c : Call} {l : LoginReq}
    (h : Origin p i x c) (hl : c.login = some l) :
    (∃ c₀ r, i = .reply c₀ r ∧ c₀.login = some l) ∨
      StartsLogin i x l.user.socketId l.user.userId := by
  cases h with
  | loginStart s req now userId connectTime asks given fresh =>
    cases hl
    exact Or.inr ⟨req, now, asks, given, fresh⟩
  | loginAgain l' notice userList resolves =>
    cases hl
    exact Or.inl resolves.login
  | hashFirst userId next key rest replied => exact Or.inl ⟨_, _, replied, hl⟩
  | hashNext key₀ next key rest userList res replied => exact Or.inl ⟨_, _, replied, hl⟩
  | loginSet l' userList resolves =>
    cases hl
    exact Or.inl resolves.login
  | _ => cases hl

theorem nextOk_login {own : Pid → Str → Prop} {p : Pid} {next : LookupFor} {l : LoginReq}
    (h : NextOk own p next) (hl : next.login = some l) : Local own p l.user := by
  cases next with
  | notice notice after =>
    cases after with
    | nobody => cases hl
    | login l' =>
      cases hl
      exact h.1
  | loginKick l' =>
    cases hl
    exact h
  | sendMsg user msg => cases hl

theorem WF.inFlight_local {w : World} (hw : WF w) {p : Pid} {s : Str} {l : LoginReq}
    (hl : InFlight w p s l) : Local w.own p l.user := by
  obtain ⟨⟨c, hc, hlog⟩, _⟩ := hl
  have hok := hw.calls p c hc
  cases c with
  | lookupKeys userId next => exact nextOk_login hok.1 hlog
  | lookupHash key rest userList next => exact nextOk_login hok.2.2 hlog
  | loginSet l' =>
    cases hlog
    exact hok
  | _ => cases hlog

theorem Executed.inFlight {w v : World} {e : Event} {q : Pid} {c : Call} {r : Store.Reply}
    (h : Executed w v e q c r) (p : Pid) (s : Str) (l : LoginReq) :
    InFlight v p s l ↔ InFlight w p s l := by
  unfold InFlight
  rw [h.calls p]

section

variable {w v : World} {e : Event} {p : Pid} {i : Input} {x : Proc}

theorem Handled.reply_call (h : Handled w v e p i x) {c : Call} {r : Store.Reply}
    (hi : i = .reply c r) : c ∈ (w.procs p).calls :=
  List.mem_append_left _ (List.mem_map_of_mem (h.reply_mem c r hi))

theorem Handled.inFlight_cases (h : Handled w v e p i x) (hw : WF w) {q : Pid} {s : Str}
    {l : LoginReq} (hl : InFlight v q s l) :
    InFlight w q s l ∨ (q = p ∧ StartsLogin i x s l.user.userId) := by
  obtain ⟨⟨c, hc, hlog⟩, hs⟩ := hl
  rcases h.call_cases hw q c hc with hc | ⟨rfl, ho⟩
  · exact Or.inl ⟨⟨c, hc, hlog⟩, hs⟩
  · rcases ho.login hlog with ⟨c₀, r, hi, hl₀⟩ | hstart
    · exact Or.inl ⟨⟨c₀, h.reply_call hi, hl₀⟩, hs⟩
    · rw [hs] at hstart
      exact Or.inr ⟨rfl, hstart⟩

end

/-! ### What names a user for a connection -/

inductive Mentions (w : World) (p : Pid) (s : Str) : Str → Prop
  | login (l : LoginReq) (h : InFlight w p s l) : Mentions w p s l.user.userId
  | user (user : User) (h : (w.procs p).userList.get s = some user) : Mentions w p s user.userId
  | record (u : Str) (h : w.db.get (uniquePattern u s) ≠ none) : Mentions w p s u
  | found (c : Call) (user : User) (hc : c ∈ (w.procs p).calls) (h : user ∈ c.found)
      (hs : user.socketId = s) : Mentions w p s user.userId
  | read (key : Str) (keys : List Str) (userList : List User) (next : LookupFor) (user : User)
      (h : (.lookupHash key keys userList next, .hash user.record) ∈ (w.procs p).answered)
      (hs : user.socketId = s) : Mentions w p s user.userId
  | leaving (user : User) (h : .logoutDel user ∈ (w.procs p).sent) (hs : user.socketId = s) :
      Mentions w p s user.userId

/-- Redis introduces no new name: what it stores or reads was named before. -/
theorem Executed.mentions {w v : World} {e : Event} {q : Pid} {c : Call} {r : Store.Reply} {p : Pid}
    {s a : Str} (hx : Executed w v e q c r) (hw : WF w) (hown : w.own p s)
    (h : Mentions v p s a) : Mentions w p s a := by
  cases h with
  | login l h => exact .login l ((hx.inFlight p s l).mp h)
  | user user h =>
    rw [hx.users p] at h
    exact .user user h
  | record u h =>
    rcases hx.online hw _ (IsOnlineKey.user a s) with hdb | ⟨l, rfl, hkey, _⟩ | ⟨user, _, _, hnone⟩
    · rw [hdb] at h
      exact .record a h
    · have hok : Local w.own q l.user := hw.calls q _ hx.mem_calls
      obtain ⟨hu, hs⟩ := hw.key_inj hok.1.1 hown hkey
      have hq := hw.login_owner hown hx.mem_calls rfl hs
      subst hq
      rw [← hu]
      exact .login l ⟨⟨_, hx.mem_calls, rfl⟩, hs⟩
    · exact absurd hnone h
  | found c' user hc h hs =>
    rw [hx.calls p] at hc
    exact .found c' user hc h hs
  | read key keys userList next user h hs =>
    rcases hx.mem_answered p _ _ h with h | ⟨_, hc, hr⟩
    · exact .read key keys userList next user h hs
    · subst hc
      subst hr
      obtain ⟨rec, o, _, _, hrec, hdb⟩ := hx.read hw
      have husr : rec.userId = user.userId := by
        have hf := congrArg (fun fs => fieldOf fs UserIdKey) hrec
        exact hf.symm
      have hsock : rec.socketId = user.socketId := by
        have hf := congrArg (fun fs => fieldOf fs SocketIdKey) hrec
        exact hf.symm
      refine .record _ ?_
      rw [← hs, ← husr, ← hsock]
      exact fun hn => Option.some_ne_none _ (hdb.symm.trans hn)
  | leaving user h hs =>
    refine .leaving user ?_ hs
    by_cases hq : p = q
    · subst hq
      rw [hx.sent]
      exact List.mem_cons_of_mem _ h
    · rwa [hx.others p hq] at h

section

variable {w v : World} {e : Event} {q : Pid} {i : Input} {x : Proc} {p : Pid} {s a : Str}

theorem Handled.mentions_redis (h : Handled w v e p i x) (hw : WF w) {key : Str} {keys : List Str}
    {userList : List User} {next : LookupFor} {res : List (Str × Str)}
    (hi : i = .reply (.lookupHash key keys userList next) (.hash res))
    (hs : (x.getUserWithRedis res).socketId = s) :
    Mentions w p s (x.getUserWithRedis res).userId := by
  have hm := h.reply_mem _ _ hi
  obtain ⟨_, user, o, _, _, rfl⟩ := h.callOk hw _ _ hi
  rw [getUserWithRedis_record] at hs ⊢
  cases hu : x.userList.get user.socketId with
  | some u =>
    rw [hu] at hs
    obtain ⟨hsock, _⟩ := h.local_user hw _ u hu
    refine .user u ?_
    rw [← h.userList, ← hs, hsock, hu]
  | none =>
    rw [hu] at hs
    exact .read key keys userList next user hm hs

theorem Handled.mentions_resolved (h : Handled w v e p i x) (hw : WF w) {next : LookupFor}
    {userList : List User} (hr : Resolves i x next userList) (user : User) (hu : user ∈ userList)
    (hs : user.socketId = s) : Mentions w p s user.userId := by
  rcases hr with ⟨userId, r, _, _, rfl⟩ | ⟨key, found, res, hi, rfl⟩
  · cases hu
  · rcases List.mem_append.mp hu with hu | hu
    · exact .found _ user (h.reply_call hi) hu hs
    · rw [List.mem_singleton.mp hu] at hs ⊢
      exact h.mentions_redis hw hi hs

theorem Handled.mentions_out (h : Handled w v e p i x) (hw : WF w) (user : User)
    (hl : LogsOut p i x user) (hs : user.socketId = s) : Mentions w p s user.userId := by
  rcases hl with ⟨t, _, hu⟩ | ⟨notice, after, userList, hr, hmem, _, _⟩
  · have hts := (h.local_user hw t user hu).1
    refine .user user ?_
    rw [← h.userList, ← hs, hts, hu]
  · exact h.mentions_resolved hw hr user hmem hs

/-- Only the start of a login introduces a name. -/
theorem Handled.mentions (h : Handled w v e q i x) (hw : WF w) (hm : Mentions v p s a) :
    Mentions w p s a ∨ (p = q ∧ StartsLogin i x s a) := by
  cases hm with
  | login l hl =>
    rcases h.inFlight_cases hw hl with hl | hstart
    · exact Or.inl (.login l hl)
    · exact Or.inr hstart
  | user user hu =>
    by_cases hq : p = q
    · subst hq
      obtain ⟨news, outs, heff⟩ := h.effect hw
      rcases heff.users s with hs | ⟨hs, _⟩ | ⟨l, r, hi, hsock, hs⟩
      · rw [hs, h.userList] at hu
        exact Or.inl (.user user hu)
      · rw [hs] at hu
        cases hu
      · rw [hs] at hu
        cases hu
        exact Or.inl (.login l ⟨⟨_, h.reply_call hi, rfl⟩, hsock⟩)
    · rw [(h.other_conns p hq).2.1] at hu
      exact Or.inl (.user user hu)
  | record u hu =>
    rw [h.db] at hu
    exact Or.inl (.record a hu)
  | found c user hc hu hs =>
    rcases h.call_cases hw p c hc with hc | ⟨rfl, ho⟩
    · exact Or.inl (.found c user hc hu hs)
    · cases ho with
      | hashNext key₀ next key rest userList res replied =>
        rcases List.mem_append.mp hu with hu | hu
        · exact Or.inl (.found _ user (h.reply_call replied) hu hs)
        · rw [List.mem_singleton.mp hu] at hs ⊢
          exact Or.inl (h.mentions_redis hw replied hs)
      | _ => cases hu
  | read key keys userList next user hm hs =>
    exact Or.inl (.read key keys userList next user (h.answered_sub hw p _ hm) hs)
  | leaving user hm hs =>
    rcases h.sent_cases hw p _ hm with hm | ⟨rfl, ho⟩
    · exact Or.inl (.leaving user hm hs)
    · cases ho with
      | logoutDel _ hlog => exact Or.inl (h.mentions_out hw user hlog hs)

theorem WF.unmentioned (hw : WF w) (hs : s ∉ w.socketIds) (hid : IsSocketId s) :
    ¬ Mentions w p s a := by
  have unseen : ∀ t (user : User), w.own t user.socketId → user.socketId ≠ s := by
    intro t user ho he
    rw [he] at ho
    exact hs (hw.ids t s ho)
  intro hm
  cases hm with
  | login l hl => exact unseen p l.user (hw.inFlight_local hl).1.1 hl.2
  | user user hu =>
    obtain ⟨hsock, hloc⟩ := hw.users p s user hu
    exact unseen p user hloc.1.1 hsock
  | record u hu =>
    obtain ⟨value, hv⟩ := Option.ne_none_iff_exists'.mp hu
    obtain ⟨user, t, ht, hk, _⟩ := entry_online w.own w.db hw.db (IsOnlineKey.user a s) hv
    have hinj := uniquePattern_inj a user.userId s user.socketId hid
      (hw.shape _ (hw.ids t _ ht.1)) hk
    exact unseen t user ht.1 hinj.2.symm
  | found c user hc hu hsock =>
    have hok := hw.calls p c hc
    cases c with
    | lookupHash key rest userList next =>
      obtain ⟨t, ht, _⟩ := hok.2.1 user hu
      exact unseen t user ht.1 hsock
    | _ => cases hu
  | read key keys userList next user hm hsock =>
    obtain ⟨u, t, ht, _, hrec⟩ := hw.replies p _ _ hm
    have hf := congrArg (fun fs => fieldOf fs SocketIdKey) hrec
    have hsu : user.socketId = u.socketId := hf
    exact unseen t u ht.1 (hsu.symm.trans hsock)
  | leaving user hm hsock =>
    have hok : UserOf w.own p user := hw.calls p _ (List.mem_append_right _ hm)
    exact unseen p user hok.1 hsock

end

/-! ### Runs whose overlapping logins agree -/

/- A login that passes the check is made on an open socket, and by the user of
every login still in flight on the connection. -/
def LoginsAgree (w : World) : Event → Prop
  | .message p s req _ => ∀ u, req.userId = some u →
      getRouterByName req.route = some (.handler .login) → (w.procs p).userList.get s = none →
      (w.procs p).ws s = some .opened ∧ ∀ l, InFlight w p s l → l.user.userId = u
  | _ => True

instance (w : World) (e : Event) : Decidable (LoginsAgree w e) :=
  match e with
  | .message p s req _ =>
    match hu : req.userId with
    | none => isTrue (by intro u h; rw [hu] at h; cases h)
    | some u =>
      decidable_of_iff (getRouterByName req.route = some (.handler .login) →
          (w.procs p).userList.get s = none → (w.procs p).ws s = some .opened ∧
          ∀ l, InFlight w p s l → l.user.userId = u)
        (by simp only [LoginsAgree, hu, Option.some.injEq, forall_eq'])
  | .connect .. | .peerClose .. | .wsError .. | .wsClose .. | .exec .. | .reply .. | .deliver .. =>
    isTrue trivial

def NoFailure : Event → Prop
  | .exec _ (.failed _) => False
  | _ => True

instance (e : Event) : Decidable (NoFailure e) :=
  match e with
  | .exec _ (.failed _) => isFalse id
  | .exec _ (.done _) => isTrue trivial
  | .connect .. | .message .. | .peerClose .. | .wsError .. | .wsClose .. | .reply ..
  | .deliver .. => isTrue trivial

/-- All that is kept about a connection names one user. -/
def Named (w : World) : Prop :=
  ∀ p s a b, w.own p s → Mentions w p s a → Mentions w p s b → a = b

section

variable {w v : World} {e : Event} {q : Pid} {i : Input} {x : Proc} {p : Pid} {s : Str}

theorem Handled.start_agrees (h : Handled w v e p i x) (hc : LoginsAgree w e) {u : Str}
    (hs : StartsLogin i x s u) :
    (w.procs p).userList.get s = none ∧ (w.procs p).ws s = some .opened ∧
      ∀ l, InFlight w p s l → l.user.userId = u := by
  obtain ⟨req, now, ⟨hi, hroute⟩, hu, hnone⟩ := hs
  have ha := h.arrives
  rw [hi] at ha
  rw [ha.1] at hc
  rw [h.userList] at hnone
  exact ⟨hnone, hc u hu hroute hnone⟩

theorem LoginAnswered.inFlight (h : LoginAnswered (w.procs p).answered s) :
    ∃ l, InFlight w p s l := by
  obtain ⟨l, r, hm, hs⟩ := h
  exact ⟨l, ⟨_, List.mem_append_left _ (List.mem_map_of_mem hm), rfl⟩, hs⟩

/-- On an open socket without a user entry only logins in flight name a user. -/
theorem Named.start (hn : Named w) (hl : AllLive w) (hopen : (w.procs p).ws s = some .opened)
    (hnone : (w.procs p).userList.get s = none) {u b : Str}
    (hall : ∀ l, InFlight w p s l → l.user.userId = u) (hb : Mentions w p s b) : b = u := by
  have hlive := hl p s hopen
  have answered : LoginAnswered (w.procs p).answered s → b = u := by
    intro ha
    obtain ⟨l, hin⟩ := ha.inFlight
    rw [← hall l hin]
    exact hn p s _ _ (own_of_ws hopen) hb (.login l hin)
  cases hb with
  | login l hin => exact hall l hin
  | user user hu =>
    rw [hnone] at hu
    cases hu
  | record _ hr =>
    rcases hlive.recorded b hr with hin | ha
    · exact absurd hnone hin
    · exact answered ha.any
  | found c user hc hu hs => exact absurd hnone (hlive.found c hc user hu hs).2
  | read key keys userList next user hm hs =>
    obtain ⟨before, rest, hans⟩ := List.append_of_mem hm
    rcases hlive.ordered before key keys userList next user.record rest hans
        (by rw [fieldOf_record_socketId, hs]) with hin | ha
    · exact absurd hnone hin
    · refine answered (ha.mono ?_)
      intro cr hcr
      rw [hans]
      exact List.mem_append_left _ hcr
  | leaving user hm hs => exact absurd hs (hlive.kept p user hm)

theorem Named.handled (hw : WF w) (hl : AllLive w) (hn : Named w) (hc : LoginsAgree w e)
    (h : Handled w v e q i x) : Named v := by
  intro p s a b hown ha hb
  rcases h.own_cases hw p s hown with hown | ⟨rfl, now, hi⟩
  · rcases h.mentions hw ha with ha | ⟨rfl, hsa⟩
    · rcases h.mentions hw hb with hb | ⟨rfl, hsb⟩
      · exact hn p s a b hown ha hb
      · obtain ⟨hnone, hopen, hall⟩ := h.start_agrees hc hsb
        exact hn.start hl hopen hnone hall ha
    · obtain ⟨hnone, hopen, hall⟩ := h.start_agrees hc hsa
      rcases h.mentions hw hb with hb | ⟨_, hsb⟩
      · exact (hn.start hl hopen hnone hall hb).symm
      · obtain ⟨req, now, ⟨hi, _⟩, hu, _⟩ := hsa
        obtain ⟨req', now', ⟨hi', _⟩, hu', _⟩ := hsb
        rw [hi] at hi'
        cases hi'
        rw [hu] at hu'
        exact Option.some.inj hu'
  · -- a new connection: nothing names it yet
    obtain ⟨hnew, hid⟩ := h.fresh s now hi
    rcases h.mentions hw ha with ha | ⟨_, req, now', ⟨hi', _⟩, _⟩
    · exact absurd ha (hw.unmentioned hnew hid)
    · rw [hi] at hi'
      cases hi'

theorem Named.executed {c : Call} {r : Store.Reply} (hw : WF w) (hn : Named w)
    (h : Executed w v e q c r) : Named v := by
  intro p s a b hown ha hb
  have ho := (h.own p s).mp hown
  exact hn p s a b ho (h.mentions hw ho ha) (h.mentions hw ho hb)

end

/-! ### Records have an entry, or are about to get or lose one -/

def Leaving (w : World) (p : Pid) (s : Str) : Prop :=
  ∃ user, .logoutDel user ∈ (w.procs p).sent ∧ user.socketId = s

def Tracked (w : World) : Prop :=
  ∀ p s u, w.own p s → w.db.get (uniquePattern u s) ≠ none →
    (w.procs p).userList.get s ≠ none ∨ LoginAnswered (w.procs p).answered s ∨ Leaving w p s

section

variable {w v : World} {e : Event} {q : Pid}

theorem Tracked.executed {c : Call} {r : Store.Reply} (hw : WF w) (hn : Named w) (ht : Tracked w)
    (hok : NoFailure e) (h : Executed w v e q c r) : Tracked v := by
  intro p s u hown hu
  have ho := (h.own p s).mp hown
  rw [h.users p]
  rcases h.online hw _ (IsOnlineKey.user u s) with hdb | ⟨l, rfl, hkey, _⟩ | ⟨user, _, _, hnone⟩
  · rw [hdb] at hu
    rcases ht p s u ho hu with hin | ⟨l, r', hm, hs⟩ | ⟨user, hm, hs⟩
    · exact Or.inl hin
    · refine Or.inr (Or.inl ⟨l, r', ?_, hs⟩)
      by_cases hq : p = q
      · subst hq
        rw [h.answered]
        exact List.mem_append_left _ hm
      · rwa [h.others p hq]
    · by_cases hq : p = q
      · subst hq
        rw [h.sent] at hm
        rcases List.mem_cons.mp hm with hm | hm
        · -- the logout itself: it deletes the only record there is
          subst hm
          have hname := hn p s user.userId u ho
            (.leaving user (by rw [h.sent]; exact List.mem_cons_self ..) hs) (.record u hu)
          rcases h.db with ⟨order, _, hrun, _⟩ | ⟨message, he, _, _⟩
          · have hgone : v.db.get user.key = none := by
              rw [hrun]
              exact Store.del_get _ _
            rw [User.key, hname, hs, hdb] at hgone
            exact absurd hgone hu
          · rw [he] at hok
            exact hok.elim
        · exact Or.inr (Or.inr ⟨user, hm, hs⟩)
      · refine Or.inr (Or.inr ⟨user, ?_, hs⟩)
        rwa [h.others p hq]
  · have hloc : Local w.own q l.user := hw.calls q _ h.mem_calls
    have hsock := (hw.key_inj hloc.1.1 ho hkey).2
    have hq := hw.login_owner ho h.mem_calls rfl hsock
    subst hq
    refine Or.inr (Or.inl ⟨l, r, ?_, hsock⟩)
    rw [h.answered]
    exact List.mem_append_right _ (List.mem_singleton.mpr rfl)
  · exact absurd hnone hu

theorem Tracked.handled {i : Input} {x : Proc} (hw : WF w) (ht : Tracked w)
    (h : Handled w v e q i x) : Tracked v := by
  intro p s u hown hu
  rw [h.db] at hu
  rcases h.own_cases hw p s hown with ho | ⟨rfl, now, hi⟩
  · by_cases hq : p = q
    · subst hq
      obtain ⟨news, outs, heff⟩ := h.effect hw
      rcases ht p s u ho hu with hin | hlog | ⟨user, hm, hs⟩
      · rcases heff.users s with hs | ⟨_, user, hsock, hdel⟩ | ⟨l, r, _, _, hs⟩
        · rw [hs, h.userList]
          exact Or.inl hin
        · refine Or.inr (Or.inr ⟨user, ?_, hsock⟩)
          rw [heff.sent]
          exact List.mem_append_right _ hdel
        · rw [hs]
          exact Or.inl (Option.some_ne_none _)
      · rw [heff.answered]
        rcases h.login_moves h.answered.symm hlog with hin | hlog
        · exact Or.inl hin
        · exact Or.inr (Or.inl hlog)
      · refine Or.inr (Or.inr ⟨user, ?_, hs⟩)
        rw [heff.sent, h.sent]
        exact List.mem_append_left _ hm
    · obtain ⟨_, hus, hsent, hans⟩ := h.other_conns p hq
      unfold Leaving
      rw [hus, hsent, hans]
      exact ht p s u ho hu
  · obtain ⟨hnew, hid⟩ := h.fresh s now hi
    exact absurd (.record u hu) (hw.unmentioned (p := p) hnew hid)

end

end NodeServer

import NodeServer.Proof.Issued
import NodeServer.Proof.Live
import NodeServer.Proof.Lookup
import NodeServer.Proof.Responses

/-! # Logins are answered

`getUserWithId` waits for every record it has found a key of, and goes on only
with a record it could read. Whoever deletes a record between the `KEYS` and the
`HGETALL` of a login leaves that login without an answer. -/

namespace NodeServer

open DBModelKeys

/-! ### Requests, answers and logins in between -/

def Request.asksLogin (req : Request) (n : ℕ) : Bool :=
  req.id = n && getRouterByName req.route = some (.handler .login)

def Input.asksLogin (s : Str) (n : ℕ) : Input → Bool
  | .message t req _ => t = s && req.asksLogin n
  | _ => false

def Event.asksLogin (p : Pid) (s : Str) (n : ℕ) : Event → Bool
  | .message q t req _ => q = p && t = s && req.asksLogin n
  | _ => false

/- The login requests with id `n` a run has seen on a connection. -/
def loginRequests (p : Pid) (s : Str) (n : ℕ) (tr : List (World × Event)) : ℕ :=
  tr.countP fun a => a.2.asksLogin p s n

def ResData.answersLogin (n : ℕ) (resData : ResData) : Bool :=
  resData.id = n && resData.route = .login

/- The responses to them. -/
def Proc.loginResponses (x : Proc) (s : Str) (n : ℕ) : ℕ :=
  (x.responses s).countP (ResData.answersLogin n)

/- The call belongs to a login with id `n` on the connection. -/
def Call.loginFor (s : Str) (n : ℕ) (c : Call) : Bool :=
  c.login.any fun l => l.user.socketId = s && l.id = n

def Proc.waiting (x : Proc) (s : Str) (n : ℕ) : ℕ := x.calls.countP (Call.loginFor s n)

theorem Handled.asksLogin {w v : World} {e : Event} {p : Pid} {i : Input} {x : Proc}
    (h : Handled w v e p i x) (q : Pid) (s : Str) (n : ℕ) :
    e.asksLogin q s n = (decide (q = p) && i.asksLogin s n) := by
  have harr := h.arrives
  cases i with
  | connect t now =>
    obtain ⟨suffix, rfl, _⟩ := harr
    simp [Event.asksLogin, Input.asksLogin]
  | message t req now =>
    obtain ⟨rfl, _⟩ := harr
    simp [Event.asksLogin, Input.asksLogin, Bool.and_assoc, eq_comm]
  | peerClose t =>
    obtain ⟨rfl, _⟩ := harr
    simp [Event.asksLogin, Input.asksLogin]
  | wsError t =>
    obtain ⟨rfl, _⟩ := harr
    simp [Event.asksLogin, Input.asksLogin]
  | wsClose t =>
    obtain ⟨rfl, _⟩ := harr
    simp [Event.asksLogin, Input.asksLogin]
  | reply c r =>
    obtain ⟨rfl, _⟩ := harr
    simp [Event.asksLogin, Input.asksLogin]
  | packet packet =>
    obtain ⟨_, t, k, rfl, _⟩ := harr
    simp [Event.asksLogin, Input.asksLogin]

/-! ### An input conserves logins -/

theorem loginFor_none {s : Str} {n : ℕ} {c : Call} (h : c.login = none) :
    c.loginFor s n = false := by
  simp [Call.loginFor, h]

theorem countP_loginFor_none {s : Str} {n : ℕ} {cs : List Call} (h : ∀ c ∈ cs, c.login = none) :
    cs.countP (Call.loginFor s n) = 0 := by
  rw [List.countP_eq_zero]
  intro c hc
  simp [loginFor_none (h c hc)]

theorem fanOut_login {notice : Notice} {users : List Str} {c : Call}
    (hc : c ∈ fanOut notice users) : c.login = none := by
  obtain ⟨u, _, rfl⟩ := List.mem_map.mp hc
  rfl

/- The login of a lookup is in the one call that goes on with it. -/
def LookupFor.loginFor (s : Str) (n : ℕ) (next : LookupFor) : ℕ :=
  if next.login.any fun l => l.user.socketId = s && l.id = n then 1 else 0

theorem doneCalls_logins (p : Pid) (x : Proc) (next : LookupFor) (userList : List User) (s : Str)
    (n : ℕ) : (x.doneCalls p userList next).countP (Call.loginFor s n) = next.loginFor s n := by
  cases next with
  | notice notice after =>
    have hdels : ((userList.filter (x.fails p)).map Call.logoutDel).countP (Call.loginFor s n) = 0 := by
      apply countP_loginFor_none
      intro c hc
      obtain ⟨user, _, rfl⟩ := List.mem_map.mp hc
      rfl
    simp only [Proc.doneCalls, List.countP_append, hdels, Nat.zero_add]
    cases after with
    | nobody => rfl
    | login l => exact List.countP_singleton
  | loginKick l => exact List.countP_singleton
  | sendMsg user msg => exact countP_loginFor_none fun c hc => fanOut_login hc

theorem loopCalls_logins (p : Pid) (x : Proc) (next : LookupFor) (userList : List User)
    (res : List Str) (s : Str) (n : ℕ) :
    (x.loopCalls p next userList res).countP (Call.loginFor s n) = next.loginFor s n := by
  cases res with
  | nil => exact doneCalls_logins p x next userList s n
  | cons key rest => exact List.countP_singleton

section

variable {w v : World} {e : Event} {p : Pid} {i : Input} {x : Proc}

/-- Only a login continues a login. -/
theorem Handled.no_logins (h : Handled w v e p i x) (hw : WF w) {c : Call} {r : Store.Reply}
    (hi : i = .reply c r) (hc : c.login = none) (s : Str) (n : ℕ) :
    (x.issued p i).countP (Call.loginFor s n) = 0 := by
  apply countP_loginFor_none
  intro c' hc'
  cases hl : c'.login with
  | none => rfl
  | some l =>
    rcases (h.issued_origin hw c' hc').login hl with ⟨c₀, r₀, hi₀, hc₀⟩ | hstart
    · rw [hi] at hi₀
      cases hi₀
      rw [hc] at hc₀
      cases hc₀
    · obtain ⟨req, now, ⟨hm, _⟩, _⟩ := hstart
      rw [hi] at hm
      cases hm

theorem written_login (x : Proc) (s t : Str) (m n : ℕ) (hopen : x.ws s = some .opened)
    (answer : Handler) (hs : answer.socketId = t) (hid : answer.resData.id = m)
    (hroute : answer.resData.route = .login) :
    (x.written s (some answer)).countP (ResData.answersLogin n) =
      if t = s ∧ m = n then 1 else 0 := by
  simp only [Proc.written, hs, hopen, and_true]
  by_cases ht : t = s
  · by_cases hm : m = n
    · simp [ht, hm, ResData.answersLogin, hid, hroute]
    · simp [ht, hm, ResData.answersLogin, hid]
  · simp [ht]

theorem written_other (x : Proc) (s : Str) (n : ℕ) (answer : Option Handler)
    (h : ∀ hd, answer = some hd → hd.resData.route ≠ .login) :
    (x.written s answer).countP (ResData.answersLogin n) = 0 := by
  rw [List.countP_eq_zero]
  intro resData hm
  unfold Proc.written at hm
  split at hm
  · rename_i hd
    split at hm
    · rw [List.mem_singleton.mp hm]
      simp [ResData.answersLogin, h hd rfl]
    · cases hm
  · cases hm

/- The logins an input ends or takes over are the ones it answers or goes on
with. -/
def Conserves (p : Pid) (i : Input) (x : Proc) (s : Str) (n : ℕ) : Prop :=
  (if i.asksLogin s n then 1 else 0) + i.replied.countP (fun cr => cr.1.loginFor s n) =
    (x.written s (x.answers i)).countP (ResData.answersLogin n) +
      (x.issued p i).countP (Call.loginFor s n)

theorem Handled.conserves_reply {c : Call} {r : Store.Reply} {s : Str}
    (h : Handled w v e p (.reply c r) x) (hw : WF w) (hopen : x.ws s = some .opened)
    (hhash : ∀ key rest users next, c = .lookupHash key rest users next → ∃ res, r = .hash res)
    (hroute : ∀ hd, c.handler = some hd → hd.resData.route ≠ .login) (n : ℕ) :
    Conserves p (.reply c r) x s n := by
  have hone : (Input.reply c r).replied.countP (fun cr => cr.1.loginFor s n) =
      [c].countP (Call.loginFor s n) := by
    simp only [Input.replied, List.countP_singleton]
  simp only [Conserves, hone, Input.asksLogin, Bool.false_eq_true, if_false, Nat.zero_add]
  -- an operation of another kind has no login and answers its own request
  have other : c.login = none → (∀ l, c ≠ .loginSet l) →
      [c].countP (Call.loginFor s n) =
        (x.written s (x.answers (.reply c r))).countP (ResData.answersLogin n) +
          (x.issued p (.reply c r)).countP (Call.loginFor s n) := by
    intro hc hne
    rw [h.no_logins hw rfl hc, written_other, countP_loginFor_none]
    · intro c' hc'
      rw [List.mem_singleton.mp hc']
      exact hc
    · intro answer hans
      rcases replyAnswer_handler hans with ⟨l, hl⟩ | ⟨hd, data, err, hhd, rfl⟩
      · exact absurd hl (hne l)
      · rw [(hd.result_request data err).2.2]
        exact hroute hd hhd
  cases c with
  | lookupKeys userId next =>
    have hcalls : (x.issued p (.reply (.lookupKeys userId next) r)).countP (Call.loginFor s n) =
        next.loginFor s n := by
      cases r with
      | array res => exact loopCalls_logins p x next [] res s n
      | _ => exact doneCalls_logins p x next [] s n
    rw [hcalls]
    exact List.countP_singleton.trans (Nat.zero_add _).symm
  | lookupHash key rest userList next =>
    obtain ⟨res, rfl⟩ := hhash key rest userList next rfl
    have hcalls : (x.issued p (.reply (.lookupHash key rest userList next) (.hash res))).countP
        (Call.loginFor s n) = next.loginFor s n := loopCalls_logins p x next _ rest s n
    rw [hcalls]
    exact List.countP_singleton.trans (Nat.zero_add _).symm
  | loginSet l =>
    obtain ⟨hs, hid, hr⟩ := loginAnswer_request (x.addUser l.user) l.user.socketId l.id
    have hwritten := written_login x s l.user.socketId l.id n hopen _ hs hid hr
    have hanswer : x.answers (.reply (.loginSet l) r) =
        some ((x.addUser l.user).loginAnswer l.user.socketId l.id) := rfl
    rw [hanswer, hwritten, List.countP_singleton]
    simp [Call.loginFor, Call.login, Proc.issued, Proc.replyCalls]
  | _ => exact other rfl (by simp)

theorem Handled.conserves_message {s t : Str} {req : Request} {now : ℕ}
    (h : Handled w v e p (.message t req now) x) (hw : WF w) (hopen : x.ws s = some .opened)
    (n : ℕ) : Conserves p (.message t req now) x s n := by
  simp only [Conserves, Input.replied, List.countP_nil, Nat.add_zero]
  by_cases hlogin : getRouterByName req.route = some (.handler .login)
  · have hasks : (Input.message t req now).asksLogin s n = decide (t = s ∧ req.id = n) := by
      simp [Input.asksLogin, Request.asksLogin, hlogin]
    have hanswer : x.answers (.message t req now) = x.requestAnswer t req .login := by
      simp only [Proc.answers, hlogin]
    have hissued : x.issued p (.message t req now) = x.requestCalls p t req now .login := by
      simp only [Proc.issued, hlogin]
    rw [hasks, hanswer, hissued]
    -- at once when the connection has a user, else at the end of the login
    have atOnce : ∀ answer, x.requestAnswer t req .login = some answer →
        (if decide (t = s ∧ req.id = n) then 1 else 0) =
          (x.written s (some answer)).countP (ResData.answersLogin n) := by
      intro answer ha
      obtain ⟨hs, hid, hr⟩ := requestAnswer_request ha
      rw [written_login x s t req.id n hopen answer hs hid hr]
      simp
    cases hid : req.userId with
    | none =>
      have ha : x.requestAnswer t req .login = some (x.loginAnswer t req.id) := by
        simp [Proc.requestAnswer, hid]
      rw [ha, ← atOnce _ ha]
      simp [Proc.requestCalls, hid]
    | some userId =>
      cases hu : x.getUserWithSocket t with
      | none =>
        simp [Proc.requestAnswer, Proc.requestCalls, hid, hu, Proc.written, Call.loginFor, Call.login,
          LookupFor.login, createUserWithLogin, List.countP_singleton]
      | some user =>
        have ha : x.requestAnswer t req .login = some (x.loginAnswer t req.id) := by
          simp [Proc.requestAnswer, hid, hu]
        rw [ha, ← atOnce _ ha]
        simp [Proc.requestCalls, hid, hu]
  · have hasks : (Input.message t req now).asksLogin s n = false := by
      simp [Input.asksLogin, Request.asksLogin, hlogin]
    have hcalls : (x.issued p (.message t req now)).countP (Call.loginFor s n) = 0 := by
      apply countP_loginFor_none
      intro c hc
      cases hl : c.login with
      | none => rfl
      | some l =>
        rcases (h.issued_origin hw c hc).login hl with ⟨c₀, r, hi, _⟩ | ⟨req', now', ⟨hi, hr⟩, _⟩
        · cases hi
        · cases hi
          exact absurd hr hlogin
    rw [hasks, hcalls, written_other]
    · rfl
    · intro answer ha
      simp only [Proc.answers] at ha
      split at ha
      · rename_i route hroute
        rw [(requestAnswer_request ha).2.2]
        rintro rfl
        exact hlogin hroute
      · cases ha

theorem Handled.conserves {s : Str} (h : Handled w v e p i x) (hw : WF w)
    (hopen : x.ws s = some .opened)
    (hhash : ∀ key rest users next r, i = .reply (.lookupHash key rest users next) r →
      ∃ res, r = .hash res)
    (hroute : ∀ c r hd, i = .reply c r → c.handler = some hd → hd.resData.route ≠ .login) (n : ℕ) :
    Conserves p i x s n := by
  have leave : ∀ t, (x.leaveCalls t).countP (Call.loginFor s n) = 0 := by
    intro t
    apply countP_loginFor_none
    intro c hc
    unfold Proc.leaveCalls at hc
    split at hc
    · cases hc
    · split at hc
      · rw [List.mem_singleton.mp hc]
        rfl
      · rcases List.mem_pair.mp hc with rfl | rfl
        · rfl
        · rfl
  cases i with
  | connect t now => rfl
  | message t req now => exact h.conserves_message hw hopen n
  | peerClose t => rfl
  | wsError t => exact (leave t).symm.trans (Nat.zero_add _).symm
  | wsClose t => exact (leave t).symm.trans (Nat.zero_add _).symm
  | reply c r =>
    refine h.conserves_reply hw hopen ?_ ?_ n
    · rintro key rest users next rfl
      exact hhash key rest users next r rfl
    · intro hd hhd
      exact hroute c r hd rfl hhd
  | packet packet => rfl

end

/-! ### Lookups go on -/

/- Every `HGETALL` of a lookup finds its record. -/
def LookupReads (w : World) : Event → Prop
  | .exec p outcome => ∀ key rest userList next,
      (w.procs p).sent.head? = some (.lookupHash key rest userList next) →
      (∃ order, outcome = .done order) ∧ w.db.get key ≠ none
  | _ => True

/- The continuation a call of `getUserWithId` works for. -/
def Call.lookup : Call → Option LookupFor
  | .lookupKeys _ next => some next
  | .lookupHash _ _ _ next => some next
  | _ => none

/- The callback of a call of `getUserWithId` issues its next command or resolves
its promise. -/
def GoesOn (w : World) (e : Event) : Prop :=
  ∀ p c r next v, inputOf w e = some (p, .reply c r) → c.lookup = some next → step w e = some v →
    (∃ c', (v.procs p).sent = (w.procs p).sent ++ [c'] ∧ c'.lookup = some next) ∨
      ∃ userList, Resolves (.reply c r) (w.procs p) next userList

def AllRead (w : World) : Prop :=
  ∀ p key rest userList next r, (.lookupHash key rest userList next, r) ∈ (w.procs p).answered →
    ∃ res, r = .hash res

section

variable {w v : World} {e : Event} {p : Pid}

theorem AllRead.executed {c : Call} {r : Store.Reply} (hw : WF w) (hr : AllRead w)
    (hcond : LookupReads w e) (h : Executed w v e p c r) : AllRead v := by
  intro q key rest userList next r' hm
  rcases h.mem_answered q _ r' hm with hm | ⟨rfl, hc, rfl⟩
  · exact hr q key rest userList next r' hm
  · subst hc
    have hhead := h.sent_head
    rcases h.db with ⟨order, rfl, _, hreply⟩ | ⟨message, rfl, _, _⟩
    · have hkey := (hcond key rest userList next hhead).2
      obtain ⟨value, hvalue⟩ := Option.ne_none_iff_exists'.mp hkey
      have hok := hw.calls q _ h.mem_calls
      obtain ⟨user, _, _, _, rfl⟩ :=
        entry_online w.own w.db hw.db (hok.1 key (List.mem_cons_self ..)) hvalue
      simp only [Call.txn, Store.Txn.run, Store.Cmd.run, Store.hgetall, hvalue] at hreply
      exact ⟨user.record, (Option.some.inj hreply).symm⟩
    · obtain ⟨order, hdone⟩ := (hcond key rest userList next hhead).1
      cases hdone

variable {i : Input} {x : Proc}

theorem AllRead.handled (hw : WF w) (hr : AllRead w) (h : Handled w v e p i x) : AllRead v := by
  intro q key rest userList next r hm
  exact hr q key rest userList next r (h.answered_sub hw q _ hm)

theorem AllRead.goesOn (hw : WF w) (hr : AllRead w) : GoesOn w e := by
  intro p c r next v hin hc hs
  rcases step_cases w v e hs with ⟨q, c', r', h⟩ | ⟨q, i, x, h⟩
  · rcases h.db with ⟨order, rfl, _⟩ | ⟨message, rfl, _⟩
    · cases hin
    · cases hin
  · rw [h.input] at hin
    cases hin
    have hsent := h.issued hw
    cases c with
    | lookupKeys userId next' =>
      obtain rfl := Option.some.inj hc
      by_cases hfound : ∃ k ks, r = .array (k :: ks)
      · obtain ⟨k, ks, rfl⟩ := hfound
        exact Or.inl ⟨_, hsent, rfl⟩
      · exact Or.inr ⟨[], Or.inl ⟨userId, r, rfl, fun k ks he => hfound ⟨k, ks, he⟩, rfl⟩⟩
    | lookupHash key rest userList next' =>
      obtain rfl := Option.some.inj hc
      obtain ⟨res, rfl⟩ := hr p key rest userList next' r (h.reply_mem _ _ rfl)
      cases rest with
      | nil => exact Or.inr ⟨_, Or.inr ⟨key, userList, res, rfl, rfl⟩⟩
      | cons k ks => exact Or.inl ⟨_, hsent, rfl⟩
    | _ => cases hc

/-! ### Requests and responses balance -/

/- On an open connection every login request is answered or under way. -/
structure Balanced (tr : List (World × Event)) (w : World) : Prop where
  routes : ∀ p, ∀ c ∈ (w.procs p).calls, ∀ hd, c.handler = some hd → hd.resData.route ≠ .login
  fresh : ∀ p s n, ¬ w.own p s → loginRequests p s n tr = 0
  logins : ∀ p s n, (w.procs p).ws s = some .opened →
    loginRequests p s n tr = (w.procs p).loginResponses s n + (w.procs p).waiting s n

theorem loginRequests_snoc (q : Pid) (s : Str) (n : ℕ) (tr : List (World × Event)) :
    loginRequests q s n (tr ++ [(w, e)]) =
      loginRequests q s n tr + if e.asksLogin q s n then 1 else 0 := by
  simp only [loginRequests, List.countP_append, List.countP_singleton]

theorem Balanced.executed {tr : List (World × Event)} {c : Call} {r : Store.Reply}
    (hb : Balanced tr w) (h : Executed w v e p c r) : Balanced (tr ++ [(w, e)]) v := by
  have hnot : ∀ q s n, e.asksLogin q s n = false := by
    intro q s n
    rcases h.db with ⟨order, rfl, _⟩ | ⟨message, rfl, _⟩
    · rfl
    · rfl
  have hconns : ∀ q, (v.procs q).conns = (w.procs q).conns := by
    intro q
    by_cases hq : q = p
    · subst hq
      exact h.conns
    · rw [h.others q hq]
  constructor
  · intro q c' hc' hd hhd
    rw [h.calls q] at hc'
    exact hb.routes q c' hc' hd hhd
  · intro q s n hown
    rw [loginRequests_snoc, hnot q s n, hb.fresh q s n fun ho => hown ((h.own q s).mpr ho)]
    rfl
  · intro q s n hopen
    rw [h.ws q s] at hopen
    rw [loginRequests_snoc, hnot q s n, hb.logins q s n hopen]
    simp only [Proc.loginResponses, Proc.responses, Proc.waiting, hconns q, h.calls q]
    rfl

theorem Handled.routes {tr : List (World × Event)} (h : Handled w v e p i x) (hw : WF w)
    (hb : Balanced tr w) :
    ∀ q, ∀ c ∈ (v.procs q).calls, ∀ hd, c.handler = some hd → hd.resData.route ≠ .login := by
  intro q c hc hd hhd
  by_cases hq : q = p
  · subst hq
    obtain ⟨hbefore, hafter⟩ := h.calls_issued hw
    rw [hafter] at hc
    rcases List.mem_append.mp hc with hc | hc
    · exact hb.routes q c (hbefore ▸ List.mem_append_right _ hc) hd hhd
    · rcases issued_handler hc hhd with ⟨c₀, r, hi, hc₀⟩ | ⟨s, req, now, route, _, _, hne, rfl⟩
      · exact hb.routes q c₀ (h.reply_call hi) hd hc₀
      · rw [(getBaseRespond_request x s req.id route).2.2]
        exact hne
  · obtain ⟨_, _, hsent, hans⟩ := h.other_conns q hq
    simp only [Proc.calls, hsent, hans] at hc
    exact hb.routes q c hc hd hhd

/-- A connection starts without logins. -/
theorem Handled.no_waiting (h : Handled w v e p i x) (hw : WF w) {s : Str} {now : ℕ}
    (hi : i = .connect s now) (n : ℕ) : (v.procs p).waiting s n = 0 := by
  obtain ⟨hsent, hans, _⟩ := h.connected hi p
  rw [Proc.waiting, List.countP_eq_zero]
  intro c hc
  simp only [Proc.calls, hsent, hans] at hc
  cases hl : c.login with
  | none => simp [loginFor_none hl]
  | some l =>
    have hs : l.user.socketId ≠ s := by
      intro hs
      have hown := (hw.inFlight_local ⟨⟨c, hc, hl⟩, hs⟩).1.1
      rw [hs] at hown
      exact (h.fresh s now hi).1 (hw.ids p s hown)
    simp [Call.loginFor, hl, hs]

theorem Handled.no_responses (h : Handled w v e p i x) {s : Str} {now : ℕ}
    (hi : i = .connect s now) (n : ℕ) : (v.procs p).loginResponses s n = 0 := by
  subst hi
  simp [h.after, react, Proc.onConnect, Proc.loginResponses, Proc.responses, Table.get_set,
    Conn.responses]

theorem Balanced.handled {tr : List (World × Event)} (hw : WF w) (hr : AllRead w)
    (hb : Balanced tr w) (h : Handled w v e p i x) : Balanced (tr ++ [(w, e)]) v := by
  constructor
  · exact h.routes hw hb
  · intro q s n hown
    have hnone : ¬ w.own q s := fun ho => hown (h.own_mono hw q s ho)
    have hnot : e.asksLogin q s n = false := by
      rw [h.asksLogin]
      cases i with
      | message t req now =>
        by_contra htrue
        simp only [Input.asksLogin, Bool.not_eq_false, Bool.and_eq_true, decide_eq_true_eq] at htrue
        obtain ⟨rfl, rfl, _⟩ := htrue
        exact hnone (h.asked_own t req now rfl)
      | _ => simp [Input.asksLogin]
    rw [loginRequests_snoc, hnot, hb.fresh q s n hnone]
    rfl
  · intro q s n hopen
    rw [loginRequests_snoc, h.asksLogin]
    by_cases hq : q = p
    · subst hq
      rcases h.open_back hw q s hopen with hopen | ⟨_, now, hi⟩
      · have hx : x.ws s = some .opened := by rw [← hopen]; simp only [Proc.ws, h.conns]
        have hcons := h.conserves hw hx
          (fun key rest users next r hi => hr q key rest users next r (h.reply_mem _ _ hi))
          (fun c r hd hi hhd => hb.routes q c (h.reply_call hi) hd hhd) n
        obtain ⟨hbefore, hafter⟩ := h.calls_issued hw
        simp only [Conserves] at hcons
        simp only [hb.logins q s n hopen, Proc.loginResponses, Proc.waiting, hbefore, hafter,
          h.responses hw s, List.countP_append, List.countP_map, Function.comp_def, decide_true,
          Bool.true_and]
        omega
      · have hnone : ¬ w.own q s := fun ho => (h.fresh s now hi).1 (hw.ids q s ho)
        rw [h.no_waiting hw hi, h.no_responses hi, hb.fresh q s n hnone, hi]
        simp [Input.asksLogin]
    · obtain ⟨hconns, _, hsent, hans⟩ := h.other_conns q hq
      have hwopen : (w.procs q).ws s = some .opened := by
        rw [← hopen]
        simp only [Proc.ws, hconns]
      rw [hb.logins q s n hwopen]
      simp [hq, Proc.loginResponses, Proc.responses, Proc.waiting, Proc.calls, hconns, hsent, hans]

end

/-! ### Every run -/

theorem logins_balance (tr : List (World × Event)) (w : World)
    (hrun : Run.Path step World.initial tr w) (hcond : ∀ a ∈ tr, LookupReads a.1 a.2) :
    WF w ∧ AllRead w ∧ Balanced tr w ∧ ∀ a ∈ tr, GoesOn a.1 a.2 := by
  revert hcond
  refine hrun.invariant (fun tr w => (∀ a ∈ tr, LookupReads a.1 a.2) →
    WF w ∧ AllRead w ∧ Balanced tr w ∧ ∀ a ∈ tr, GoesOn a.1 a.2) ?_ ?_
  · intro _
    refine ⟨WF.initial, ?_, ⟨?_, ?_, ?_⟩, ?_⟩
    · intro p key rest userList next r hm
      cases hm
    · intro p c hc
      cases hc
    · intro p s n _
      rfl
    · intro p s n hopen
      cases hopen
    · intro a ha
      cases ha
  · intro tr w e v ih hs hcond
    obtain ⟨hw, hr, hb, hgoes⟩ := ih fun a ha => hcond a (List.mem_append_left _ ha)
    have hlast := hcond (w, e) (List.mem_append_right _ (List.mem_singleton.mpr rfl))
    have hgoes' : ∀ a ∈ tr ++ [(w, e)], GoesOn a.1 a.2 := by
      intro a ha
      rcases List.mem_append.mp ha with ha | ha
      · exact hgoes a ha
      · rw [List.mem_singleton.mp ha]
        exact hr.goesOn hw
    rcases step_cases w v e hs with ⟨p, c, r, h⟩ | ⟨p, i, x, h⟩
    · exact ⟨hw.step hs, hr.executed hw hlast h, hb.executed h, hgoes'⟩
    · exact ⟨hw.step hs, hr.handled hw h, hb.handled hw hr h, hgoes'⟩

/-- When every record a lookup has found a key of is still there when it is
read, every lookup goes on until it resolves, and every login on a connection
that stays open is answered. -/
theorem logins_answered (tr : List (World × Event)) (w : World)
    (hrun : Run.Path step World.initial tr w) (hcond : ∀ a ∈ tr, LookupReads a.1 a.2) :
    (∀ a ∈ tr, GoesOn a.1 a.2) ∧ (Quiescent w → ∀ p s n, (w.procs p).ws s = some .opened →
      (w.procs p).loginResponses s n = loginRequests p s n tr) := by
  obtain ⟨_, _, hb, hgoes⟩ := logins_balance tr w hrun hcond
  refine ⟨hgoes, ?_⟩
  intro hquiet p s n hopen
  have hwaiting : (w.procs p).waiting s n = 0 := by
    simp [Proc.waiting, Proc.calls, (hquiet p).1, (hquiet p).2.1]
  rw [hb.logins p s n hopen, hwaiting, Nat.add_zero]

/-! ### A second login that reads the first one's record, and one that finds it gone -/

def lookupReadsTest (w : World) : Event → Bool
  | .exec p outcome =>
    match (w.procs p).sent, outcome with
    | .lookupHash key _ _ _ :: _, .done _ => (w.db.get key).isSome
    | .lookupHash _ _ _ _ :: _, .failed _ => false
    | _, _ => true
  | _ => true

theorem lookupReadsTest_sound (w : World) (e : Event) (h : lookupReadsTest w e = true) :
    LookupReads w e := by
  cases e with
  | exec p outcome =>
    intro key rest userList next hhead
    obtain ⟨tail, hsent⟩ := List.head?_eq_some_iff.mp hhead
    simp only [lookupReadsTest, hsent] at h
    cases outcome with
    | done order => exact ⟨⟨order, rfl⟩, Option.isSome_iff_ne_none.mp h⟩
    | failed message => cases h
  | _ => trivial

/- B logs in on process 1 as the user A is logged in as on process 0, up to the
second `KEYS`. -/
def secondLoginTrace : List Event :=
  onlineTrace ['u'] ++ [.connect 1 ['B'] 3, .message 1 (socketIdOf ['B']) (loginRequest ['u']) 4,
    .exec 1 (.done [uniquePattern ['u'] (socketIdOf ['A'])]), .reply 1, .exec 1 (.done []), .reply 1,
    .exec 1 (.done [uniquePattern ['u'] (socketIdOf ['A'])]), .reply 1]

/- A is kicked and its record deleted. -/
def firstLeavesTrace : List Event :=
  [.deliver 1 0 0, .wsClose 0 (socketIdOf ['A']), .exec 0 (.done []), .reply 0]

def readInTimeTrace : List Event :=
  secondLoginTrace ++ [.exec 1 (.done []), .reply 1, .exec 1 (.done []), .reply 1] ++ firstLeavesTrace

theorem logins_answered_in_time :
    (∀ a ∈ Run.steps step World.initial readInTimeTrace, GoesOn a.1 a.2) ∧
      (Quiescent (Run.ends step World.initial readInTimeTrace) → ∀ p s n,
        ((Run.ends step World.initial readInTimeTrace).procs p).ws s = some .opened →
        ((Run.ends step World.initial readInTimeTrace).procs p).loginResponses s n =
          loginRequests p s n (Run.steps step World.initial readInTimeTrace)) := by
  have hrun : Run.Path step World.initial _ _ := Run.path_ends readInTimeTrace (by decide +kernel)
  have htest : ∀ a ∈ Run.steps step World.initial readInTimeTrace,
      lookupReadsTest a.1 a.2 = true := List.all_eq_true.mp (by decide +kernel)
  exact logins_answered _ _ hrun fun a ha => lookupReadsTest_sound a.1 a.2 (htest a ha)

def readTooLateTrace : List Event :=
  secondLoginTrace ++ firstLeavesTrace ++ [.exec 1 (.done []), .reply 1]

theorem login_never_answered :
    ¬ ∀ (tr : List (World × Event)) (w : World), Run.Path step World.initial tr w →
      (∀ a ∈ tr, GoesOn a.1 a.2) ∧ (Quiescent w → ∀ p s n, (w.procs p).ws s = some .opened →
        (w.procs p).loginResponses s n = loginRequests p s n tr) := by
  intro hall
  obtain ⟨hruns, hdone, hopen, hdiffer⟩ :
      (Run.runs step World.initial readTooLateTrace).isSome = true ∧
      ((readTooLateTrace.flatMap Event.pids).all fun p =>
        ((Run.ends step World.initial readTooLateTrace).procs p).quiet) = true ∧
      ((Run.ends step World.initial readTooLateTrace).procs 1).ws (socketIdOf ['B']) =
        some .opened ∧
      ((Run.ends step World.initial readTooLateTrace).procs 1).loginResponses (socketIdOf ['B']) 1 ≠
        loginRequests 1 (socketIdOf ['B']) 1 (Run.steps step World.initial readTooLateTrace) := by
    decide +kernel
  have hquiet := quiescent_ends readTooLateTrace _ (Run.runs_ends hruns) hdone
  exact hdiffer ((hall _ _ (Run.path_ends readTooLateTrace hruns)).2 hquiet 1 _ 1 hopen)

end NodeServer

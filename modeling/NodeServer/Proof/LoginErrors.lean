import NodeServer.Proof.RoomErrors
import NodeServer.Proof.LoginProgress

/-! # Logins under Redis errors

A login looks its user up twice, each time with `KEYS` and one `HGETALL` for
every key found, and then stores its record with `HMSET`. An error of `KEYS` counts
as an empty list. An `HGETALL` without a record ends the login without a response,
and an error of `HMSET` is not looked at: the user is installed and told so. -/

namespace NodeServer

open DBModelKeys

/-! ### The calls of a login -/

/- The calls in flight that belong to logins, with the replies that are there. -/
def Proc.logins (x : Proc) : List (Call × Option Store.Reply) :=
  x.queue.filter fun a => a.1.login.isSome

theorem logins_flight (x : Proc) : x.logins = x.flight fun c => c.login.isSome := rfl

/- The replies a login is meant to go on with. -/
def Call.loginGood : Call → Store.Reply → Bool
  | .lookupHash _ _ _ _, .hash _ => true
  | .lookupHash _ _ _ next, _ => next.login.isNone
  | .loginSet _, r => r.err.isNone
  | _, _ => true

/- The lookups still to be done, this one included. -/
def LookupFor.stage : LookupFor → ℕ
  | .notice _ _ => 3
  | _ => 1

/- How much of a login is left: a stage, and the keys that stage has to read. -/
def Call.loginRank : Call → ℕ × ℕ
  | .lookupKeys _ next => (next.stage + 1, 0)
  | .lookupHash _ rest _ next => (next.stage, rest.length)
  | _ => (0, 0)

/- What the callback of a call of the login `l` does: it issues the next call of
the login, resolves the promise of the request, or does neither. -/
inductive LoginGoes (l : LoginReq) (c : Call) (r : Store.Reply) (answer : Option Handler)
    (news : List Call) : Prop
  | next (d : Call) (early : c ≠ .loginSet l) (good : c.loginGood r = true)
      (login : d.login = some l) (lower : Prod.Lex (· < ·) (· < ·) d.loginRank c.loginRank)
      (pending : answer = none) (issued : news.filter (fun c => c.login.isSome) = [d])
  | ends (a : Handler) (last : c = .loginSet l) (resolved : answer = some a)
      (errno : a.resData.errno = 0) (request : a.socketId = l.user.socketId ∧
        a.resData.id = l.id ∧ a.resData.route = .login) (issued : news = [])
  | stuck (early : c ≠ .loginSet l) (starved : c.loginGood r = false) (pending : answer = none)
      (issued : news = [])

section

variable {l : LoginReq} {next : LookupFor} {c : Call}

theorem doneCalls_login (hl : next.login = some l) (p : Pid) (x : Proc) (userList : List User) :
    ∃ d, (x.doneCalls p userList next).filter (fun c => c.login.isSome) = [d] ∧
      d.login = some l ∧ d.loginRank.1 < next.stage := by
  cases next with
  | notice notice after =>
    cases after with
    | nobody => cases hl
    | login l' =>
      cases hl
      have hdels : ((userList.filter (x.fails p)).map Call.logoutDel).filter
          (fun c => c.login.isSome) = [] := by
        apply List.filter_eq_nil_iff.mpr
        intro c hc
        obtain ⟨user, -, rfl⟩ := List.mem_map.mp hc
        exact Bool.false_ne_true
      refine ⟨.lookupKeys l.user.userId (.loginKick l), ?_, rfl, Nat.lt_succ_self 2⟩
      rw [Proc.doneCalls, List.filter_append, hdels]
      rfl
  | loginKick l' =>
    cases hl
    exact ⟨.loginSet l, rfl, rfl, Nat.zero_lt_one⟩
  | sendMsg user msg => cases hl

theorem loopCalls_login (hl : next.login = some l) (p : Pid) (x : Proc) (userList : List User)
    (res : List Str) :
    ∃ d, (x.loopCalls p next userList res).filter (fun c => c.login.isSome) = [d] ∧
      d.login = some l ∧
      Prod.Lex (· < ·) (· < ·) d.loginRank (next.stage, res.length) := by
  cases res with
  | nil =>
    obtain ⟨d, hfilter, hd, hlt⟩ := doneCalls_login hl p x userList
    exact ⟨d, hfilter, hd, .left _ _ hlt⟩
  | cons key rest =>
    refine ⟨.lookupHash key rest userList next, ?_, hl, .right _ (Nat.lt_succ_self _)⟩
    have hsome : (Call.lookupHash key rest userList next).login.isSome = true := by
      rw [Call.login, hl]
      rfl
    simp [Proc.loopCalls, hsome]

theorem loginGood_of_none (hc : c.login = none) (r : Store.Reply) : c.loginGood r = true := by
  cases c with
  | lookupHash key rest userList next =>
    have hnext : next.login = none := hc
    cases r with
    | hash res => rfl
    | _ => simp [Call.loginGood, hnext]
  | loginSet l => cases hc
  | _ => rfl

theorem login_goes (hl : c.login = some l) (p : Pid) (x y : Proc) (r : Store.Reply) :
    LoginGoes l c r (y.replyAnswer c r) (x.replyCalls p c r) := by
  cases c with
  | lookupKeys userId next =>
    have hnext : next.login = some l := hl
    have hne : Call.lookupKeys userId next ≠ .loginSet l := fun heq => by cases heq
    cases r with
    | array res =>
      obtain ⟨d, hfilter, hd, hlt⟩ := loopCalls_login hnext p x [] res
      refine .next d hne rfl hd (Prod.lex_def.mpr (Or.inl ?_)) rfl hfilter
      show d.loginRank.1 < next.stage + 1
      rcases Prod.lex_def.mp hlt with hlt | ⟨heq, -⟩
      · exact Nat.lt_succ_of_lt hlt
      · exact Nat.lt_succ_of_le (Nat.le_of_eq heq)
    | _ =>
      obtain ⟨d, hfilter, hd, hlt⟩ := doneCalls_login hnext p x []
      exact .next d hne rfl hd (.left _ _ (Nat.lt_succ_of_lt hlt)) rfl hfilter
  | lookupHash key rest userList next =>
    have hnext : next.login = some l := hl
    have hne : Call.lookupHash key rest userList next ≠ .loginSet l := fun heq => by cases heq
    cases r with
    | hash res =>
      obtain ⟨d, hfilter, hd, hlt⟩ :=
        loopCalls_login hnext p x (userList ++ [x.getUserWithRedis res]) rest
      exact .next d hne rfl hd hlt rfl hfilter
    | _ => exact .stuck hne (by simp [Call.loginGood, hnext]) rfl rfl
  | loginSet l' =>
    cases hl
    refine .ends _ rfl rfl ?_ (loginAnswer_request _ _ _) rfl
    have huser : (y.addUser l.user).getUserWithSocket l.user.socketId = some l.user := by
      simp [Proc.addUser, Proc.getUserWithSocket, Table.get_set]
    simp only [Proc.loginAnswer, Proc.getBaseRespond, huser]
    rfl
  | _ => cases hl

end

/-! ### A login without other requests -/

def Event.isRequest : Event → Bool
  | .message _ _ _ _ => true
  | _ => false

/- A reply of a login that its callback is handed is one to go on with. -/
def LoginFed (w : World) (e : Event) : Prop :=
  ∀ q c r, inputOf w e = some (q, .reply c r) → c.loginGood r = true

/- No request is being processed. -/
def Idle (w : World) : Prop :=
  ∀ q, ∀ c ∈ (w.procs q).calls, c.handler = none ∧ c.login = none

/- The login `l` is the only request, with one call in flight or none. -/
structure Solo (p : Pid) (l : LoginReq) (v : World) : Prop where
  wf : WF v
  calls : ∀ q, ∀ c ∈ (v.procs q).calls, c.handler = none ∧ (c.login ≠ none → q = p)
  flight : (v.procs p).logins = [] ∨ ∃ c o, (v.procs p).logins = [(c, o)] ∧ c.login = some l

/- What a step does to the call of the login. -/
inductive SoloStep (p : Pid) (l : LoginReq) (v : World) (e : Event) (v' : World) : Prop
  | other (same : (v'.procs p).logins = (v.procs p).logins) (pending : v.resolves e = none)
      (fed : LoginFed v e) (unsaved : v.succeeds e ≠ some (.loginSet l))
  | executed (c : Call) (r : Store.Reply) (sent : (v.procs p).logins = [(c, none)])
      (answered : (v'.procs p).logins = [(c, some r)]) (run : Executed v v' e p c r)
  | called (c : Call) (r : Store.Reply) (x : Proc) (answered : (v.procs p).logins = [(c, some r)])
      (run : Handled v v' e p (.reply c r) x)
      (goes : LoginGoes l c r (v.resolves e) (x.issued p (.reply c r)))
      (issued : (v'.procs p).logins =
        ((x.issued p (.reply c r)).filter fun c => c.login.isSome).map fun c => (c, none))

section

variable {p q : Pid} {l : LoginReq} {v v' : World} {e : Event} {c : Call} {r : Store.Reply}
  {i : Input} {x : Proc}

theorem singleton_split {α : Type} {a b : α} {before rest : List α}
    (h : [a] = before ++ b :: rest) : before = [] ∧ a = b ∧ rest = [] := by
  cases before with
  | nil =>
    cases h
    exact ⟨rfl, rfl, rfl⟩
  | cons d before => simp at h

theorem Executed.fed (h : Executed v v' e q c r) : LoginFed v e := by
  intro q' c' r' hin
  rcases h.db with ⟨order, rfl, _⟩ | ⟨message, rfl, _⟩
  · cases hin
  · cases hin

theorem Handled.fed_iff (h : Handled v v' e q (.reply c r) x) :
    LoginFed v e ↔ c.loginGood r = true := by
  constructor
  · intro hfed
    exact hfed q c r h.input
  · intro hgood q' c' r' hin
    rw [h.input] at hin
    cases hin
    exact hgood

theorem Solo.short (h : Solo p l v) : (v.procs p).logins.length ≤ 1 := by
  rcases h.flight with hnil | ⟨c, o, hone, -⟩
  · rw [hnil]
    exact Nat.zero_le 1
  · rw [hone]
    exact Nat.le_refl 1

theorem Solo.executed (h : Solo p l v) (hx : Executed v v' e q c r) : SoloStep p l v e v' := by
  cases hc : c.login with
  | none =>
    have hsame : (v'.procs p).logins = (v.procs p).logins := by
      rw [logins_flight, logins_flight]
      exact hx.flight_other (by rw [hc]; rfl) p
    refine .other hsame hx.resolves hx.fed ?_
    rw [hx.succeeds]
    split
    · rintro heq
      cases heq
      cases hc
    · exact fun heq => by cases heq
  | some l' =>
    have hq : q = p := (h.calls q c hx.mem_calls).2 (by rw [hc]; exact Option.some_ne_none _)
    subst hq
    have hshort := h.short
    rw [logins_flight] at hshort
    obtain ⟨hsent, hans⟩ := hx.flight_moves (by rw [hc]; rfl) hshort
    rw [← logins_flight] at hsent hans
    exact .executed c r hsent hans hx

theorem Handled.not_request (h : Handled v v' e q i x) (he : e.isRequest = false) (s : Str)
    (req : Request) (now : ℕ) : i ≠ .message s req now := by
  rintro rfl
  obtain ⟨rfl, -⟩ := inputOf_arrives v e q _ h.input
  cases he

/-- Without requests nothing but a callback of the login issues calls of it. -/
theorem Solo.issued (h : Solo p l v) (hh : Handled v v' e q i x) (he : e.isRequest = false)
    (hc : c ∈ x.issued q i) :
    c.handler = none ∧ ∀ l', c.login = some l' → ∃ c₀ r, i = .reply c₀ r ∧ c₀.login = some l' := by
  constructor
  · cases hhandler : c.handler with
    | none => rfl
    | some hd =>
      rcases issued_handler hc hhandler with ⟨c₀, r, rfl, hc₀⟩ | ⟨s, req, now, route, hi, -⟩
      · rw [(h.calls q c₀ (hh.reply_call rfl)).1] at hc₀
        cases hc₀
      · exact absurd hi (hh.not_request he s req now)
  · intro l' hl'
    rcases (hh.issued_origin h.wf c hc).login hl' with hreply | ⟨req, now, ⟨hi, -⟩, -⟩
    · exact hreply
    · exact absurd hi (hh.not_request he _ req now)

theorem Solo.quiet (h : Solo p l v) (hh : Handled v v' e q i x) (he : e.isRequest = false)
    (hi : ∀ c r, i = .reply c r → c.login = none) : v.resolves e = none := by
  rw [hh.resolves]
  cases i with
  | message s req now => exact absurd rfl (hh.not_request he s req now)
  | reply c r =>
    cases hans : (v.procs q).answers (.reply c r) with
    | none => rfl
    | some answer =>
      rcases replyAnswer_handler hans with ⟨l', rfl⟩ | ⟨hd, data, err, hhd, -⟩
      · cases hi _ r rfl
      · rw [(h.calls q c (hh.reply_call rfl)).1] at hhd
        cases hhd
  | _ => rfl

theorem Solo.otherwise (h : Solo p l v) (hh : Handled v v' e q i x) (he : e.isRequest = false)
    (hi : ∀ c r, i = .reply c r → c.login = none) : SoloStep p l v e v' := by
  refine .other ?_ (h.quiet hh he hi) ?_ ?_
  · by_cases hq : p = q
    · subst hq
      obtain ⟨hold, hnew⟩ := hh.flight h.wf fun c => c.login.isSome
      have hissued : (x.issued p i).filter (fun c => c.login.isSome) = [] := by
        apply List.filter_eq_nil_iff.mpr
        intro c hc hsome
        obtain ⟨l', hl'⟩ := Option.isSome_iff_exists.mp hsome
        obtain ⟨c₀, r, hreply, hc₀⟩ := (h.issued hh he hc).2 l' hl'
        rw [hi c₀ r hreply] at hc₀
        cases hc₀
      have hreplied : i.replied.filter (fun cr => cr.1.login.isSome) = [] := by
        cases i with
        | reply c r => simp [Input.replied, hi c r rfl]
        | _ => rfl
      rw [logins_flight, logins_flight, hnew, hold, hissued, hreplied]
      simp
    · rw [Proc.logins, hh.queue_other hq]
      rfl
  · intro q' c r hin
    rw [hh.input] at hin
    cases hin
    exact loginGood_of_none (hi c r rfl) r
  · rw [hh.succeeds]
    exact fun heq => by cases heq

theorem Solo.callback (h : Solo p l v) (hh : Handled v v' e p (.reply c r) x)
    (hc : c.login.isSome = true) : (v.procs p).logins = [(c, some r)] ∧
      LoginGoes l c r (v.resolves e) (x.issued p (.reply c r)) ∧
      (v'.procs p).logins =
        ((x.issued p (.reply c r)).filter fun c => c.login.isSome).map fun c => (c, none) := by
  obtain ⟨hold, hnew⟩ := hh.flight h.wf fun c => c.login.isSome
  have hreplied : (Input.reply c r).replied.filter (fun cr => cr.1.login.isSome) = [(c, r)] := by
    simp [Input.replied, hc]
  rw [hreplied] at hold
  have hcall : (v.procs p).logins = (c, some r) :: x.logins := hold
  rcases h.flight with hnil | ⟨d, o, hone, hd⟩
  · rw [hnil] at hcall
    cases hcall
  · rw [hone] at hcall
    obtain ⟨heq, hx⟩ := List.cons.inj hcall
    cases heq
    refine ⟨hone, ?_, ?_⟩
    · rw [hh.resolves]
      exact login_goes hd p x (v.procs p) r
    · rw [logins_flight, hnew]
      show x.logins ++ _ = _
      rw [← hx]
      rfl

theorem Solo.soloStep (h : Solo p l v) (he : e.isRequest = false) (hs : step v e = some v') :
    SoloStep p l v e v' := by
  rcases step_cases v v' e hs with ⟨q, c, r, hx⟩ | ⟨q, i, x, hh⟩
  · exact h.executed hx
  · by_cases hown : ∃ c r, i = .reply c r ∧ c.login.isSome = true
    · obtain ⟨c, r, rfl, hc⟩ := hown
      have hq := (h.calls q c (hh.reply_call rfl)).2 (Option.isSome_iff_ne_none.mp hc)
      subst hq
      obtain ⟨hans, hgoes, hnews⟩ := h.callback hh hc
      exact .called c r x hans hh hgoes hnews
    · refine h.otherwise hh he fun c r hi => ?_
      cases hc : c.login with
      | none => rfl
      | some l' => exact absurd ⟨c, r, hi, by rw [hc]; rfl⟩ hown

theorem SoloStep.flight (h : SoloStep p l v e v')
    (hv : (v.procs p).logins = [] ∨ ∃ c o, (v.procs p).logins = [(c, o)] ∧ c.login = some l) :
    (v'.procs p).logins = [] ∨ ∃ c o, (v'.procs p).logins = [(c, o)] ∧ c.login = some l := by
  cases h with
  | other same pending fed unsaved => rwa [same]
  | executed c r sent answered run =>
    rcases hv with hnil | ⟨d, o, hone, hd⟩
    · rw [hnil] at sent
      cases sent
    · rw [hone] at sent
      cases sent
      exact Or.inr ⟨c, some r, answered, hd⟩
  | called c r x answered run goes issued =>
    rw [issued]
    cases goes with
    | next d early good login lower pending news => exact Or.inr ⟨d, none, by rw [news]; rfl, login⟩
    | ends a last resolved errno request news =>
      rw [news]
      exact Or.inl rfl
    | stuck early starved pending news =>
      rw [news]
      exact Or.inl rfl

/-- Only the login is resolved. -/
theorem Solo.resolvesFor (h : Solo p l v) (he : e.isRequest = false) (hs : step v e = some v') :
    v.ResolvesFor p l.user.socketId e := by
  intro answer ha
  cases h.soloStep he hs with
  | other same pending fed unsaved =>
    rw [pending] at ha
    cases ha
  | executed c r sent answered run =>
    rw [run.resolves] at ha
    cases ha
  | called c r x answered run goes issued =>
    refine ⟨by rw [run.input]; rfl, ?_⟩
    cases goes with
    | next d early good login lower pending issued =>
      rw [pending] at ha
      cases ha
    | ends a last resolved errno request issued =>
      rw [resolved] at ha
      cases ha
      exact request.1
    | stuck early starved pending issued =>
      rw [pending] at ha
      cases ha

theorem Solo.step (h : Solo p l v) (he : e.isRequest = false) (hs : step v e = some v') :
    Solo p l v' := by
  refine ⟨h.wf.step hs, ?_, (h.soloStep he hs).flight h.flight⟩
  intro t c hc
  rcases step_cases v v' e hs with ⟨q, d, r, hx⟩ | ⟨q, i, x, hh⟩
  · rw [hx.calls t] at hc
    exact h.calls t c hc
  · by_cases ht : t = q
    · subst ht
      obtain ⟨hold, hnew⟩ := hh.calls_issued h.wf
      rw [hnew] at hc
      rcases List.mem_append.mp hc with hc | hc
      · exact h.calls t c (hold ▸ List.mem_append_right _ hc)
      · obtain ⟨hhandler, hlogin⟩ := h.issued hh he hc
        refine ⟨hhandler, fun hne => ?_⟩
        obtain ⟨l', hl'⟩ := Option.ne_none_iff_exists'.mp hne
        obtain ⟨c₀, r, rfl, hc₀⟩ := hlogin l' hl'
        exact (h.calls t c₀ (hh.reply_call rfl)).2 (by rw [hc₀]; exact Option.some_ne_none _)
    · obtain ⟨outbox, hv, -⟩ := hh.others t ht
      rw [hv] at hc
      exact h.calls t c hc

theorem Solo.login_eq (h : Solo p l v) {l' : LoginReq} (hc : c ∈ (v.procs q).calls)
    (hl : c.login = some l') : l' = l := by
  have hq : q = p := (h.calls q c hc).2 (by rw [hl]; exact Option.some_ne_none _)
  subst hq
  obtain ⟨o, hmem⟩ := mem_calls_iff.mp hc
  have hlogin : (c, o) ∈ (v.procs q).logins := List.mem_filter.mpr ⟨hmem, by simp [hl]⟩
  rcases h.flight with hnil | ⟨d, o', hone, hd⟩
  · rw [hnil] at hlogin
    cases hlogin
  · rw [hone] at hlogin
    cases List.mem_singleton.mp hlogin
    rw [hl] at hd
    exact Option.some.inj hd

/-- The servers alone can bring every login to an end: each callback leaves less to
do. -/
theorem Solo.completes {v : World} {c : Call} {o : Option Store.Reply} (h : Solo p l v)
    (hone : (v.procs p).logins = [(c, o)]) (hc : c.login = some l) :
    ∃ v', Run.Reach NodeServer.step (fun _ e => e.server = true) v v' ∧
      (v'.procs p).logins = [] := by
  have hserver : ∀ e : Event, e.server = true → e.isRequest = false := by
    intro e he
    cases e with
    | message => cases he
    | _ => rfl
  have hmem : (c, o) ∈ (v.procs p).logins := by
    rw [hone]
    exact List.mem_singleton_self _
  rw [logins_flight] at hmem
  obtain ⟨u, r, rest, hreach, hans⟩ := reaches_callback h.wf (mem_queue_of_flight hmem)
  have hu : Solo p l u := Run.Reach.invariant (Solo p l) h
    (fun _ e _ hv he hs => hv.step (hserver e he) hs) hreach
  obtain ⟨u', hs⟩ := reply_enabled hans
  have hin : inputOf u (.reply p) = some (p, .reply c r) := by
    simp only [inputOf, hans]
  have hh := handled_takeOff hs hin
  have hu' := hu.step rfl hs
  have hnow := Run.Reach.tail _ hreach rfl hs
  obtain ⟨-, hgoes, hnews⟩ := hu.callback hh (by rw [hc]; rfl)
  cases hgoes with
  | next d early good login lower pending issued =>
    rw [issued] at hnews
    obtain ⟨v', hlater, hdone⟩ := hu'.completes hnews login
    exact ⟨v', hnow.trans hlater, hdone⟩
  | ends a last resolved errno request issued =>
    rw [issued] at hnews
    exact ⟨u', hnow, hnews⟩
  | stuck early starved pending issued =>
    rw [issued] at hnews
    exact ⟨u', hnow, hnews⟩
termination_by c.loginRank
decreasing_by exact lower

end

/-! ### The outcome of the login -/

/- `ctx.userId`. -/
def Proc.ctxUserId (s : Str) (x : Proc) : Option Str := (x.conns.get s).bind Conn.userId

/- The `HMSET` of the login has been executed without an error. -/
def Stored (l : LoginReq) (tr : List (World × Event)) : Prop :=
  ∃ a ∈ tr, a.1.succeeds a.2 = some (.loginSet l)

def LoginsFed (tr : List (World × Event)) : Prop := ∀ a ∈ tr, LoginFed a.1 a.2

/- The response of a login is of its request, and says whether the session is
recorded in Redis and in `userList`. -/
structure LoginOutcome (p : Pid) (l : LoginReq) (tr : List (World × Event)) (v : World)
    (answer : Handler) : Prop where
  request : answer.socketId = l.user.socketId ∧ answer.resData.id = l.id ∧
    answer.resData.route = .login
  errno : answer.resData.errno = 0 ↔
    Stored l tr ∧ (v.procs p).userList.get l.user.socketId = some l.user
  failed : answer.resData.errno ≠ 0 → ¬ Stored l tr ∧
    (v.procs p).userList.get l.user.socketId = none ∧ (v.procs p).ctxUserId l.user.socketId = none
  recorded : Stored l tr → (v.procs p).ws l.user.socketId = some .opened →
    v.db.get l.user.key = some (.hash l.user.record)

/- Whenever a step of the run resolves a request, its outcome is that of the login. -/
def Outcomes (p : Pid) (l : LoginReq) (tr : List (World × Event)) : Prop :=
  ∀ before z e rest z' answer, tr = before ++ (z, e) :: rest → step z e = some z' →
    z.resolves e = some answer → LoginOutcome p l before z' answer

/- The login is under way, answered, or left without an answer. -/
inductive LoginPhase (p : Pid) (l : LoginReq) (tr : List (World × Event)) (v : World) : Prop
  | waiting (c : Call) (o : Option Store.Reply) (flight : (v.procs p).logins = [(c, o)])
      (login : c.login = some l) (silent : resolutions tr = [])
      (stored : Stored l tr ↔ c = .loginSet l ∧ ∃ r, o = some r ∧ r.err = none)
      (fed : LoginsFed tr) (outcomes : Outcomes p l tr)
  | answered (flight : (v.procs p).logins = []) (once : (resolutions tr).length = 1)
      (outcomes : Outcomes p l tr ↔ LoginsFed tr)
  | stuck (flight : (v.procs p).logins = []) (silent : resolutions tr = [])
      (starved : ¬ LoginsFed tr)

structure Attempt (p : Pid) (l : LoginReq) (tr : List (World × Event)) (v : World) : Prop where
  solo : Solo p l v
  live : AllLive v
  own : v.own p l.user.socketId
  phase : LoginPhase p l tr v
  recorded : Stored l tr → (v.procs p).ws l.user.socketId = some .opened →
    v.db.get l.user.key = some (.hash l.user.record)

section

variable {p : Pid} {l : LoginReq} {tr : List (World × Event)} {v v' : World} {e : Event}

theorem stored_snoc : Stored l (tr ++ [(v, e)]) ↔
    Stored l tr ∨ v.succeeds e = some (.loginSet l) := by
  simp [Stored, or_and_right, exists_or]

theorem loginsFed_snoc : LoginsFed (tr ++ [(v, e)]) ↔ LoginsFed tr ∧ LoginFed v e := by
  simp [LoginsFed, or_imp, forall_and]

theorem outcomes_snoc (hs : step v e = some v') : Outcomes p l (tr ++ [(v, e)]) ↔
    Outcomes p l tr ∧ ∀ answer, v.resolves e = some answer → LoginOutcome p l tr v' answer := by
  constructor
  · intro h
    refine ⟨?_, ?_⟩
    · intro before z e' rest z' answer htr
      exact h before z e' (rest ++ [(v, e)]) z' answer (by rw [htr]; simp)
    · intro answer
      exact h tr v e [] v' answer rfl hs
  · rintro ⟨hold, hlast⟩ before z e' rest z' answer htr hstep hres
    rcases snoc_split htr with ⟨rfl, heq⟩ | ⟨rest', htr'⟩
    · cases heq
      rw [hs] at hstep
      cases hstep
      exact hlast answer hres
    · exact hold before z e' rest' z' answer htr' hstep hres

/-- While the socket is open nothing deletes or replaces the record. -/
theorem Attempt.recorded_step (h : Attempt p l tr v) (hs : step v e = some v')
    (hstored : Stored l (tr ++ [(v, e)])) (hopen : (v'.procs p).ws l.user.socketId = some .opened) :
    v'.db.get l.user.key = some (.hash l.user.record) := by
  have hw := h.solo.wf
  rcases step_cases v v' e hs with ⟨q, c, r, hx⟩ | ⟨q, i, x, hh⟩
  · rw [hx.ws] at hopen
    by_cases hc : c = .loginSet l ∧ r.err = none
    · obtain ⟨rfl, hr⟩ := hc
      rcases hx.db with ⟨order, _, hdb, _⟩ | ⟨message, _, _, rfl⟩
      · rw [hdb]
        exact hmset_record v.own v.db hw.db l.user
      · cases hr
    · have hbefore : Stored l tr := by
        rcases stored_snoc.mp hstored with hbefore | hnow
        · exact hbefore
        · rw [hx.succeeds] at hnow
          split at hnow
          · next hr => exact absurd ⟨Option.some.inj hnow, hr⟩ hc
          · cases hnow
      have hget := h.recorded hbefore hopen
      rcases hx.online hw _ (IsOnlineKey.user _ _) with hsame | ⟨l', rfl, -, hnew⟩ |
        ⟨user, rfl, hkey, -⟩
      · exact hsame.trans hget
      · rwa [h.solo.login_eq hx.mem_calls rfl] at hnew
      · have hok := hw.calls q _ hx.mem_calls
        refine absurd (hw.key_inj hok.1 h.own hkey).2 ((h.live p _ hopen).kept q user ?_)
        rw [hx.sent]
        exact List.mem_cons_self ..
  · rw [hh.db]
    rcases hh.open_back hw p _ hopen with hback | ⟨_, now, hi⟩
    · refine h.recorded ?_ hback
      rcases stored_snoc.mp hstored with hbefore | hnow
      · exact hbefore
      · rw [hh.succeeds] at hnow
        cases hnow
    · exact absurd (hw.ids p _ h.own) (hh.fresh _ now hi).1

theorem resolutions_silent (hp : v.resolves e = none) :
    resolutions (tr ++ [(v, e)]) = resolutions tr := by
  rw [resolutions_snoc, hp]
  exact List.append_nil _

theorem outcomes_silent (hs : step v e = some v') (hp : v.resolves e = none) :
    Outcomes p l (tr ++ [(v, e)]) ↔ Outcomes p l tr := by
  rw [outcomes_snoc hs]
  refine and_iff_left fun answer hans => ?_
  rw [hp] at hans
  cases hans

theorem LoginPhase.of_flight {c : Call} {o : Option Store.Reply} (h : LoginPhase p l tr v)
    (hc : (v.procs p).logins = [(c, o)]) : resolutions tr = [] ∧ c.login = some l ∧
      (Stored l tr ↔ c = .loginSet l ∧ ∃ r, o = some r ∧ r.err = none) ∧ LoginsFed tr ∧
      Outcomes p l tr := by
  cases h with
  | waiting c' o' flight login silent stored fed outcomes =>
    rw [hc] at flight
    cases flight
    exact ⟨silent, login, stored, fed, outcomes⟩
  | answered flight once outcomes =>
    rw [hc] at flight
    cases flight
  | stuck flight silent starved =>
    rw [hc] at flight
    cases flight

/-- The last callback installs the user; whether that is the outcome reported depends
on the reply to the `HMSET`. -/
theorem Attempt.outcome_iff {r : Store.Reply} {x : Proc} {answer : Handler}
    (h : Attempt p l tr v) (hs : step v e = some v')
    (hh : Handled v v' e p (.reply (.loginSet l) r) x) (hstored : Stored l tr ↔ r.err = none)
    (herrno : answer.resData.errno = 0) (hrequest : answer.socketId = l.user.socketId ∧
      answer.resData.id = l.id ∧ answer.resData.route = .login) :
    LoginOutcome p l tr v' answer ↔ r.err = none := by
  have hinstalled := hh.installed rfl
  constructor
  · intro hout
    exact hstored.mp (hout.errno.mp herrno).1
  · intro hr
    refine ⟨hrequest, iff_of_true herrno ⟨hstored.mpr hr, hinstalled⟩,
      fun hne => absurd herrno hne, ?_⟩
    intro hst hopen
    exact h.recorded_step hs (stored_snoc.mpr (Or.inl hst)) hopen

theorem LoginPhase.executed {c : Call} {r : Store.Reply} (h : LoginPhase p l tr v)
    (hs : step v e = some v') (hx : Executed v v' e p c r)
    (hsent : (v.procs p).logins = [(c, none)]) (hans : (v'.procs p).logins = [(c, some r)]) :
    LoginPhase p l (tr ++ [(v, e)]) v' := by
  obtain ⟨hsilent, hlogin, hstored, hfed, hout⟩ := h.of_flight hsent
  refine .waiting c (some r) hans hlogin ?_ ?_ (loginsFed_snoc.mpr ⟨hfed, hx.fed⟩)
    ((outcomes_silent hs hx.resolves).mpr hout)
  · rw [resolutions_silent hx.resolves, hsilent]
  · have hnot : ¬ Stored l tr := by
      rw [hstored]
      rintro ⟨-, r', heq, -⟩
      cases heq
    rw [stored_snoc, hx.succeeds]
    by_cases hr : r.err = none
    · simp [hnot, hr]
    · simp [hnot, hr]

theorem Attempt.called {c : Call} {r : Store.Reply} {x : Proc} (h : Attempt p l tr v)
    (hs : step v e = some v') (hans : (v.procs p).logins = [(c, some r)])
    (hh : Handled v v' e p (.reply c r) x)
    (hgoes : LoginGoes l c r (v.resolves e) (x.issued p (.reply c r)))
    (hnews : (v'.procs p).logins =
      ((x.issued p (.reply c r)).filter fun c => c.login.isSome).map fun c => (c, none)) :
    LoginPhase p l (tr ++ [(v, e)]) v' := by
  obtain ⟨hsilent, hlogin, hstored, hfed, hout⟩ := h.phase.of_flight hans
  have hsaved : Stored l (tr ++ [(v, e)]) ↔ Stored l tr := by
    rw [stored_snoc, hh.succeeds]
    simp
  cases hgoes with
  | next d early good login lower pending issued =>
    rw [issued] at hnews
    refine .waiting d none hnews login ?_ ?_ (loginsFed_snoc.mpr ⟨hfed, hh.fed_iff.mpr good⟩)
      ((outcomes_silent hs pending).mpr hout)
    · rw [resolutions_silent pending, hsilent]
    · rw [hsaved, hstored]
      simp [early]
  | ends a last resolved errno request issued =>
    subst last
    rw [issued] at hnews
    have hset : Stored l tr ↔ r.err = none := by
      rw [hstored]
      simp
    refine .answered hnews ?_ ?_
    · rw [resolutions_snoc, hsilent, resolved]
      rfl
    · rw [outcomes_snoc hs, loginsFed_snoc, hh.fed_iff]
      have hone : (∀ answer, v.resolves e = some answer → LoginOutcome p l tr v' answer) ↔
          r.err = none := by
        rw [resolved]
        simp only [Option.some.injEq, forall_eq']
        exact h.outcome_iff hs hh hset errno request
      simp [hout, hfed, hone, Call.loginGood]
  | stuck early starved pending issued =>
    rw [issued] at hnews
    refine .stuck hnews (by rw [resolutions_silent pending, hsilent]) ?_
    rw [loginsFed_snoc, hh.fed_iff, starved]
    simp

theorem LoginPhase.otherwise (h : LoginPhase p l tr v) (hs : step v e = some v')
    (hsame : (v'.procs p).logins = (v.procs p).logins) (hp : v.resolves e = none)
    (hf : LoginFed v e) (hunsaved : v.succeeds e ≠ some (.loginSet l)) :
    LoginPhase p l (tr ++ [(v, e)]) v' := by
  have hres : resolutions (tr ++ [(v, e)]) = resolutions tr := resolutions_silent hp
  have hstored : Stored l (tr ++ [(v, e)]) ↔ Stored l tr := by
    rw [stored_snoc]
    exact or_iff_left hunsaved
  have hfed : LoginsFed (tr ++ [(v, e)]) ↔ LoginsFed tr := by
    rw [loginsFed_snoc]
    exact and_iff_left hf
  have hout : Outcomes p l (tr ++ [(v, e)]) ↔ Outcomes p l tr := outcomes_silent hs hp
  cases h with
  | waiting c o flight login silent stored fed outcomes =>
    exact .waiting c o (hsame.trans flight) login (hres.trans silent) (hstored.trans stored)
      (hfed.mpr fed) (hout.mpr outcomes)
  | answered flight once outcomes =>
    exact .answered (hsame.trans flight) (by rw [hres, once]) (by rw [hout, hfed, outcomes])
  | stuck flight silent starved =>
    exact .stuck (hsame.trans flight) (hres.trans silent) (by rwa [hfed])

theorem Attempt.step (h : Attempt p l tr v) (he : e.isRequest = false)
    (hs : step v e = some v') : Attempt p l (tr ++ [(v, e)]) v' := by
  refine ⟨h.solo.step he hs, h.live.step h.solo.wf hs, ?_, ?_, h.recorded_step hs⟩
  · rcases step_cases v v' e hs with ⟨q, c, r, hx⟩ | ⟨q, i, x, hh⟩
    · exact (hx.own p _).mpr h.own
    · exact hh.own_mono h.solo.wf p _ h.own
  · cases h.solo.soloStep he hs with
    | other same pending fed unsaved => exact h.phase.otherwise hs same pending fed unsaved
    | executed c r sent answered run => exact h.phase.executed hs run sent answered
    | called c r x answered run goes issued => exact h.called hs answered run goes issued

end

/-! ### All or nothing -/

/- The login a request starts on a connection that is not logged in. -/
def Proc.loginReq (p : Pid) (s userId : Str) (req : Request) (now : ℕ) (x : Proc) : LoginReq :=
  ⟨createUserWithLogin p x.nextRef userId s (((x.conns.get s).map Conn.connectTtime).getD [])
    (natText now), req.id⟩

/- One response in all, to come or already there, and with the outcome it reports. -/
structure AllOrNothing (p : Pid) (l : LoginReq) (tr : List (World × Event)) (v : World) : Prop where
  once : (resolutions tr).length + (v.procs p).logins.length = 1
  outcomes : Outcomes p l tr

section

variable {p : Pid} {s userId : Str} {req : Request} {now : ℕ} {w m v : World}
  {tr : List (World × Event)}

theorem Attempt.allOrNothing_iff {l : LoginReq} (h : Attempt p l tr v) :
    AllOrNothing p l tr v ↔ LoginsFed tr := by
  cases h.phase with
  | waiting c o flight login silent stored fed outcomes =>
    refine iff_of_true ⟨?_, outcomes⟩ fed
    rw [silent, flight]
    rfl
  | answered flight once outcomes =>
    rw [← outcomes]
    refine ⟨fun h => h.outcomes, fun h => ⟨?_, h⟩⟩
    rw [once, flight]
    rfl
  | stuck flight silent starved =>
    refine iff_of_false (fun h => ?_) starved
    have honce := h.once
    rw [silent, flight] at honce
    cases honce

theorem message_fed : LoginFed w (.message p s req now) := by
  intro q c r hin
  obtain ⟨-, heq⟩ := inputOf_message hin
  cases heq

/-- The request issues its first `KEYS` and resolves nothing yet. -/
theorem attempt_begins (hw : WF w) (hlive : AllLive w) (hidle : Idle w)
    (hroute : getRouterByName req.route = some (.handler .login)) (huser : req.userId = some userId)
    (hnew : (w.procs p).userList.get s = none) (hs : step w (.message p s req now) = some m) :
    Attempt p ((w.procs p).loginReq p s userId req now) [(w, .message p s req now)] m := by
  obtain ⟨q, i, x, h⟩ := step_handled hs rfl
  obtain ⟨rfl, rfl⟩ := inputOf_message h.input
  have hx : x.userList.get s = none := by rw [h.userList, hnew]
  have hissued : x.issued p (.message s req now) = [.lookupKeys userId
      (.notice (.kick userId) (.login ((w.procs p).loginReq p s userId req now)))] := by
    simp only [Proc.issued, hroute, Proc.requestCalls, huser, Proc.getUserWithSocket, hx,
      Proc.loginReq, h.nextRef, h.conns]
  have hpending : w.resolves (.message p s req now) = none := by
    rw [h.resolves]
    simp only [Proc.answers, hroute, Proc.requestAnswer, huser, Proc.getUserWithSocket, hnew]
  have hunsaved : ¬ Stored ((w.procs p).loginReq p s userId req now)
      [(w, .message p s req now)] := by
    rintro ⟨a, ha, hsucceeds⟩
    rw [List.mem_singleton.mp ha] at hsucceeds
    cases hsucceeds
  have hbefore : (w.procs p).logins = [] := by
    rw [Proc.logins, List.filter_eq_nil_iff]
    intro a ha
    rw [(hidle p a.1 (mem_calls_iff.mpr ⟨a.2, ha⟩)).2]
    exact Bool.false_ne_true
  have hflight : (m.procs p).logins = [(.lookupKeys userId (.notice (.kick userId)
      (.login ((w.procs p).loginReq p s userId req now))), none)] := by
    obtain ⟨hold, hafter⟩ := h.flight hw fun c => c.login.isSome
    have hx : x.logins = [] := by
      rw [← hbefore]
      exact hold.symm
    rw [logins_flight, hafter, hissued]
    show x.logins ++ _ = _
    rw [hx]
    rfl
  refine ⟨⟨hw.step hs, ?_, Or.inr ⟨_, none, hflight, rfl⟩⟩, hlive.step hw hs, ?_,
    .waiting _ none hflight rfl ?_ ?_ ?_ ?_, fun hst => absurd hst hunsaved⟩
  · intro t c hc
    by_cases ht : t = p
    · subst ht
      obtain ⟨hcold, hcnew⟩ := h.calls_issued hw
      rw [hcnew, hissued] at hc
      refine ⟨?_, fun _ => rfl⟩
      rcases List.mem_append.mp hc with hc | hc
      · exact (hidle t c (hcold ▸ List.mem_append_right _ hc)).1
      · rw [List.mem_singleton.mp hc]
        rfl
    · obtain ⟨outbox, hv, -⟩ := h.others t ht
      rw [hv] at hc
      obtain ⟨hhandler, hlogin⟩ := hidle t c hc
      exact ⟨hhandler, fun hne => absurd hlogin hne⟩
  · refine h.own_mono hw p s ?_
    rcases h.arrives.2 with hws | hws
    · exact own_of_ws hws
    · exact own_of_ws hws
  · simp [resolutions, hpending]
  · refine iff_of_false hunsaved ?_
    rintro ⟨heq, -⟩
    cases heq
  · intro a ha
    rw [List.mem_singleton.mp ha]
    exact message_fed
  · intro before z e rest z' answer htr _ hres
    obtain ⟨rfl, heq, rfl⟩ := singleton_split htr
    cases heq
    rw [hpending] at hres
    cases hres

theorem login_attempt (hreach : Reachable w) (hidle : Idle w)
    (hroute : getRouterByName req.route = some (.handler .login)) (huser : req.userId = some userId)
    (hnew : (w.procs p).userList.get s = none) (hs : step w (.message p s req now) = some m)
    (hrun : Run.Path step m tr v) (halone : ∀ a ∈ tr, a.2.isRequest = false) :
    Attempt p ((w.procs p).loginReq p s userId req now) ((w, .message p s req now) :: tr) v := by
  obtain ⟨hw, hlive⟩ := allLive_reach hreach
  induction hrun with
  | nil => exact attempt_begins hw hlive hidle hroute huser hnew hs
  | snoc e hpath hstep ih =>
    have hbefore := ih fun a ha => halone a (List.mem_append_left _ ha)
    exact hbefore.step (halone (_, e) (List.mem_append_right _ (List.mem_singleton_self _))) hstep

/-- On a connection that stays open the responses are those the login is resolved with, so that
they are as many and say the same. -/
theorem login_responded (hreach : Reachable w) (hidle : Idle w)
    (hroute : getRouterByName req.route = some (.handler .login)) (huser : req.userId = some userId)
    (hnew : (w.procs p).userList.get s = none) (hs : step w (.message p s req now) = some m)
    (hrun : Run.Path step m tr v) (halone : ∀ a ∈ tr, a.2.isRequest = false)
    (hopen : ∀ a ∈ (w, .message p s req now) :: tr, (a.1.procs p).ws s = some .opened) :
    (v.procs p).responses s = (w.procs p).responses s ++
      (resolutions ((w, .message p s req now) :: tr)).map Handler.resData := by
  refine path_responses (WF.initial.reach hreach) (.cons hs hrun) hopen ?_
  rw [List.forall_mem_cons]
  refine ⟨message_resolvesFor hs, ?_⟩
  clear hopen
  induction hrun with
  | nil => exact List.forall_mem_nil _
  | snoc e hpath hstep ih =>
    have hbefore := fun a ha => halone a (List.mem_append_left _ ha)
    have hsolo := (login_attempt hreach hidle hroute huser hnew hs hpath hbefore).solo
    have he := halone (_, e) (List.mem_append_right _ (List.mem_singleton_self _))
    rw [List.forall_mem_append, List.forall_mem_singleton]
    exact ⟨ih hbefore, hsolo.resolvesFor he hstep⟩

/-- A login without concurrent requests is all or nothing exactly as long as every
`HGETALL` of it finds its record and its `HMSET` succeeds; however its commands end, it can
be brought to an end. -/
theorem login_all_or_nothing_iff (hreach : Reachable w) (hidle : Idle w)
    (hroute : getRouterByName req.route = some (.handler .login)) (huser : req.userId = some userId)
    (hnew : (w.procs p).userList.get s = none) (hs : step w (.message p s req now) = some m)
    (hrun : Run.Path step m tr v) (halone : ∀ a ∈ tr, a.2.isRequest = false) :
    (AllOrNothing p ((w.procs p).loginReq p s userId req now) ((w, .message p s req now) :: tr) v ↔
      LoginsFed tr) ∧
    ∃ v', Run.Reach step (fun _ e => e.server = true) v v' ∧ (v'.procs p).logins = [] := by
  have h := login_attempt hreach hidle hroute huser hnew hs hrun halone
  refine ⟨?_, ?_⟩
  · rw [h.allOrNothing_iff, LoginsFed, List.forall_mem_cons]
    exact and_iff_right message_fed
  · rcases h.solo.flight with hnil | ⟨c, o, hone, hc⟩
    · exact ⟨v, .refl, hnil⟩
    · exact h.solo.completes hone hc

end

/-! ### A login over an earlier session, and one whose record is not stored -/

def loginFedTest (w : World) (e : Event) : Bool :=
  match inputOf w e with
  | some (_, .reply c r) => c.loginGood r
  | _ => true

theorem loginFedTest_iff (w : World) (e : Event) : loginFedTest w e = true ↔ LoginFed w e := by
  unfold loginFedTest LoginFed
  split
  · next q c r hin =>
    constructor
    · intro hgood q' c' r' hin'
      rw [hin] at hin'
      cases hin'
      exact hgood
    · intro h
      exact h q c r hin
  · next hother =>
    refine iff_of_true rfl fun q c r hin => ?_
    exact absurd hin (hother q c r)

theorem loginsFed_iff_all (tr : List (World × Event)) :
    LoginsFed tr ↔ tr.all (fun a => loginFedTest a.1 a.2) = true := by
  simp [LoginsFed, List.all_eq_true, loginFedTest_iff]

def idleTest (ps : List Pid) (w : World) : Bool :=
  ps.all fun q => (w.procs q).calls.all fun c => c.handler.isNone && c.login.isNone

theorem idleTest_sound (ps : List Pid) (w : World) (hw : ∀ q, q ∉ ps → w.procs q = Proc.initial)
    (h : idleTest ps w = true) : Idle w := by
  intro q c hc
  by_cases hq : q ∈ ps
  · have hcalls := List.all_eq_true.mp (List.all_eq_true.mp h q hq) c hc
    simpa using hcalls
  · rw [hw q hq] at hc
    cases hc

/- B connects to process 1 while A is logged in as `u` on process 0. -/
def arrivedTrace : List Event := onlineTrace ['u'] ++ [.connect 1 ['B'] 3]

def arrived : World := Run.ends step World.initial arrivedTrace

def reloginAsked : World :=
  Run.ends step World.initial (arrivedTrace ++ [.message 1 (socketIdOf ['B']) (loginRequest ['u']) 4])

/- Both lookups of B find the session of A. -/
def reloginTrace : List Event :=
  served 1 [uniquePattern ['u'] (socketIdOf ['A'])] ++ served 1 [] ++
    served 1 [uniquePattern ['u'] (socketIdOf ['A'])] ++ served 1 [] ++ served 1 []

theorem relogin_all_or_nothing :
    AllOrNothing 1 ((arrived.procs 1).loginReq 1 (socketIdOf ['B']) ['u'] (loginRequest ['u']) 4)
      ((arrived, .message 1 (socketIdOf ['B']) (loginRequest ['u']) 4) ::
        Run.steps step reloginAsked reloginTrace) (Run.ends step reloginAsked reloginTrace) ∧
    ((Run.ends step reloginAsked reloginTrace).procs 1).logins.length = 0 := by
  obtain ⟨harrived, hasked, hrun, hidle, hnew, halone, hfed, hdone⟩ :
      (Run.runs step World.initial arrivedTrace).isSome = true ∧
      (Run.runs step World.initial
        (arrivedTrace ++ [.message 1 (socketIdOf ['B']) (loginRequest ['u']) 4])).isSome = true ∧
      (Run.runs step reloginAsked reloginTrace).isSome = true ∧
      idleTest [0, 1] arrived = true ∧
      (arrived.procs 1).userList.get (socketIdOf ['B']) = none ∧
      (Run.steps step reloginAsked reloginTrace).all (fun a => !a.2.isRequest) = true ∧
      (Run.steps step reloginAsked reloginTrace).all (fun a => loginFedTest a.1 a.2) = true ∧
      ((Run.ends step reloginAsked reloginTrace).procs 1).logins.length = 0 := by
    decide +kernel
  have hreach : Reachable arrived := Run.reach_ends arrivedTrace harrived
  have hquiet : Idle arrived := idleTest_sound [0, 1] arrived
    (untouched_ends [0, 1] arrivedTrace (by decide) harrived) hidle
  have hclosed : ∀ a ∈ Run.steps step reloginAsked reloginTrace, a.2.isRequest = false := by
    intro a ha
    simpa using List.all_eq_true.mp halone a ha
  have hiff := (login_all_or_nothing_iff hreach hquiet (by decide) rfl hnew (Run.step_ends hasked)
    (Run.path_ends _ hrun) hclosed).1
  exact ⟨hiff.mpr ((loginsFed_iff_all _).mpr hfed), hdone⟩

/- A logs in on a new connection and the `HMSET` fails. -/
def connectedA : World := Run.ends step World.initial [.connect 0 ['A'] 1]

def loginAsked : World :=
  Run.ends step World.initial
    ([.connect 0 ['A'] 1] ++ [.message 0 (socketIdOf ['A']) (loginRequest ['u']) 2])

def unsavedTrace : List Event :=
  served 0 [] ++ served 0 [] ++ [.exec 0 (.failed ['e']), .reply 0]

theorem login_reported_without_record :
    ¬ ∀ (w m v : World) (p : Pid) (s userId : Str) (req : Request) (now : ℕ)
      (tr : List (World × Event)), Reachable w → Idle w →
      getRouterByName req.route = some (.handler .login) → req.userId = some userId →
      (w.procs p).userList.get s = none → step w (.message p s req now) = some m →
      Run.Path step m tr v → (∀ a ∈ tr, a.2.isRequest = false) →
      AllOrNothing p ((w.procs p).loginReq p s userId req now)
        ((w, .message p s req now) :: tr) v := by
  intro hall
  obtain ⟨hconnected, hasked, hrun, hidle, hnew, halone, hfed⟩ :
      (Run.runs step World.initial [.connect 0 ['A'] 1]).isSome = true ∧
      (Run.runs step World.initial ([.connect 0 ['A'] 1] ++
        [.message 0 (socketIdOf ['A']) (loginRequest ['u']) 2])).isSome = true ∧
      (Run.runs step loginAsked unsavedTrace).isSome = true ∧
      idleTest [0] connectedA = true ∧
      (connectedA.procs 0).userList.get (socketIdOf ['A']) = none ∧
      (Run.steps step loginAsked unsavedTrace).all (fun a => !a.2.isRequest) = true ∧
      (Run.steps step loginAsked unsavedTrace).all (fun a => loginFedTest a.1 a.2) = false := by
    decide +kernel
  have hreach : Reachable connectedA := Run.reach_ends _ hconnected
  have hquiet : Idle connectedA := idleTest_sound [0] connectedA
    (untouched_ends [0] _ (by decide) hconnected) hidle
  have hclosed : ∀ a ∈ Run.steps step loginAsked unsavedTrace, a.2.isRequest = false := by
    intro a ha
    simpa using List.all_eq_true.mp halone a ha
  have hroute : getRouterByName (loginRequest ['u']).route = some (.handler .login) := by decide
  have hstep := Run.step_ends hasked
  have hpath := Run.path_ends _ hrun
  have hbad := hall connectedA _ _ 0 _ ['u'] _ _ _ hreach hquiet hroute rfl hnew hstep hpath hclosed
  have hattempt := login_attempt hreach hquiet hroute rfl hnew hstep hpath hclosed
  have hgood := (loginsFed_iff_all _).mp (hattempt.allOrNothing_iff.mp hbad)
  rw [List.all_cons, hfed, Bool.and_false] at hgood
  cases hgood

end NodeServer

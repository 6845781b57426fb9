import NodeServer.Proof.LoginProgress
import NodeServer.Proof.Numbering

/-! # A login writes its record last

Every login request is a login of its own, with one call in flight at a time, and the
`HMSET` is its last one. A record that a login finds in Redis is therefore the record of
another login, also when both are on one connection. -/

namespace NodeServer

open DBModelKeys

/- Somebody has asked to log in as `u` on connection `s`. -/
def LoginAsked (tr : List (World × Event)) (s u : Str) : Prop :=
  ∃ a ∈ tr, ∃ p req now, a.2 = .message p s req now ∧
    getRouterByName req.route = some (.handler .login) ∧ req.userId = some u

/- Redis has executed the `HMSET` of login `l` of process `p`. -/
def LoginWritten (tr : List (World × Event)) (p : Pid) (l : LoginReq) : Prop :=
  ∃ a ∈ tr, ∃ order, a.2 = .exec p (.done order) ∧ (a.1.procs p).sent.head? = some (.loginSet l)

theorem LoginAsked.append {tr : List (World × Event)} {s u : Str} (h : LoginAsked tr s u)
    (tr' : List (World × Event)) : LoginAsked (tr ++ tr') s u := by
  obtain ⟨a, ha, hrest⟩ := h
  exact ⟨a, List.mem_append_left _ ha, hrest⟩

theorem LoginWritten.append {tr : List (World × Event)} {p : Pid} {l : LoginReq}
    (h : LoginWritten tr p l) (tr' : List (World × Event)) : LoginWritten (tr ++ tr') p l := by
  obtain ⟨a, ha, hrest⟩ := h
  exact ⟨a, List.mem_append_left _ ha, hrest⟩

/-! ### Logins are apart -/

/- The call belongs to the login whose `User` object is `ref`. -/
def Call.ofLogin (ref : ℕ) (c : Call) : Bool := c.login.any fun l => l.user.ref = ref

structure LoginsApart (tr : List (World × Event)) (w : World) : Prop where
  once : ∀ p ref, ((w.procs p).calls.filter (Call.ofLogin ref)).length ≤ 1
  written : ∀ p l, LoginWritten tr p l →
    l.user.appInfo = appInfo p ∧ l.user.ref < (w.procs p).nextRef
  waiting : ∀ p q c l, c ∈ (w.procs p).calls → c.login = some l → c ≠ .loginSet l →
    ¬ LoginWritten tr q l

theorem Call.ofLogin_iff {c : Call} {ref : ℕ} :
    c.ofLogin ref = true ↔ ∃ l, c.login = some l ∧ l.user.ref = ref := by
  simp [Call.ofLogin, Option.any_eq_true]

theorem Call.chained_of_login {c : Call} {l : LoginReq} (h : c.login = some l) :
    c.chained = true := by
  cases c with
  | lookupKeys userId next =>
    cases next with
    | notice notice after =>
      cases after with
      | nobody => cases h
      | login l' => rfl
    | _ => rfl
  | lookupHash | loginSet => rfl
  | _ => cases h

theorem mem_short {α : Type} {a b : α} {as : List α} (h : as.length ≤ 1) (ha : a ∈ as)
    (hb : b ∈ as) : a = b := by
  cases as with
  | nil => cases ha
  | cons d ds =>
    cases ds with
    | nil => rw [List.mem_singleton.mp ha, List.mem_singleton.mp hb]
    | cons d' ds => simp at h

theorem Resolves.lookup {i : Input} {x : Proc} {next : LookupFor} {userList : List User}
    (h : Resolves i x next userList) :
    ∃ c r, i = .reply c r ∧ c.login = next.login ∧ ∀ l, c ≠ .loginSet l := by
  rcases h with ⟨userId, r, hi, _, _⟩ | ⟨key, found, res, hi, _⟩
  · exact ⟨_, _, hi, rfl, fun l => by simp⟩
  · exact ⟨_, _, hi, rfl, fun l => by simp⟩

/-- A login goes on from one of its lookups, or is a new object. -/
theorem Origin.login_cases {p : Pid} {i : Input} {x : Proc} {c : Call} {l : LoginReq}
    (h : Origin p i x c) (hl : c.login = some l) :
    (∃ c₀ r, i = .reply c₀ r ∧ c₀.login = some l ∧ c₀ ≠ .loginSet l) ∨
      (l.user.ref = x.nextRef ∧ l.user.appInfo = appInfo p) := by
  cases h with
  | loginStart s req now userId connectTime asks given fresh =>
    cases hl
    exact Or.inr ⟨rfl, rfl⟩
  | loginAgain l' notice userList resolves =>
    cases hl
    obtain ⟨c₀, r, hi, hc₀, hne⟩ := resolves.lookup
    exact Or.inl ⟨c₀, r, hi, hc₀, hne _⟩
  | hashFirst userId next key rest replied => exact Or.inl ⟨_, _, replied, hl, by simp⟩
  | hashNext key₀ next key rest userList res replied =>
    exact Or.inl ⟨_, _, replied, hl, by simp⟩
  | loginSet l' userList resolves =>
    cases hl
    obtain ⟨c₀, r, hi, hc₀, hne⟩ := resolves.lookup
    exact Or.inl ⟨c₀, r, hi, hc₀, hne _⟩
  | _ => cases hl

section

variable {w v : World} {e : Event} {p : Pid} {i : Input} {x : Proc} {c : Call} {r : Store.Reply}
  {tr : List (World × Event)}

theorem LoginWritten.executed {q : Pid} {l : LoginReq} (h : Executed w v e p c r)
    (hreg : LoginWritten (tr ++ [(w, e)]) q l) : LoginWritten tr q l ∨ (q = p ∧ c = .loginSet l) := by
  obtain ⟨a, ha, order, he, hhead⟩ := hreg
  rcases List.mem_append.mp ha with ha | ha
  · exact Or.inl ⟨a, ha, order, he, hhead⟩
  · rw [List.mem_singleton.mp ha] at he hhead
    have hq : q = p := by
      rcases h.db with ⟨order', he', _⟩ | ⟨message, he', _⟩
      · rw [he'] at he
        cases he
        rfl
      · rw [he'] at he
        cases he
    subst hq
    rw [h.sent_head] at hhead
    exact Or.inr ⟨rfl, Option.some.inj hhead⟩

theorem LoginWritten.handled {q : Pid} {l : LoginReq} (h : Handled w v e p i x)
    (hreg : LoginWritten (tr ++ [(w, e)]) q l) : LoginWritten tr q l := by
  obtain ⟨a, ha, order, he, hhead⟩ := hreg
  rcases List.mem_append.mp ha with ha | ha
  · exact ⟨a, ha, order, he, hhead⟩
  · obtain rfl := List.mem_singleton.mp ha
    have hin := h.input
    rw [show e = .exec q (.done order) from he] at hin
    cases hin

theorem step_nextRef (hs : step w e = some v) (hw : WF w) (q : Pid) :
    (w.procs q).nextRef ≤ (v.procs q).nextRef := by
  rcases step_cases w v e hs with ⟨p, c, r, hx⟩ | ⟨p, i, x, hx⟩
  · rcases hx.db with ⟨order, rfl, _⟩ | ⟨message, rfl, _⟩
    · exact le_of_eq (execStep_counters hs q).2.symm
    · exact le_of_eq (execStep_counters hs q).2.symm
  · by_cases hq : q = p
    · subst hq
      exact (hx.created_ref hw).1
    · obtain ⟨outbox, hv, _⟩ := hx.others q hq
      rw [hv]

theorem LoginsApart.executed (ha : LoginsApart tr w) (hw : WF w) (hs : step w e = some v)
    (h : Executed w v e p c r) (hn : ∀ q, ∃ ws, Numbered (w.procs q) ws) :
    LoginsApart (tr ++ [(w, e)]) v where
  once := by
    intro q ref
    rw [h.calls q]
    exact ha.once q ref
  written := by
    intro q l hreg
    have hle := step_nextRef hs hw q
    rcases hreg.executed h with hreg | ⟨rfl, rfl⟩
    · exact ⟨(ha.written q l hreg).1, lt_of_lt_of_le (ha.written q l hreg).2 hle⟩
    · obtain ⟨ws, hnum⟩ := hn q
      have hlt := hnum.bound l.user
        (Or.inl (Or.inr ⟨_, h.mem_calls, List.mem_singleton.mpr rfl⟩))
      have hok : Local w.own q l.user := hw.calls q _ h.mem_calls
      exact ⟨hok.1.2, lt_of_lt_of_le hlt hle⟩
  waiting := by
    intro q q' c' l hc' hl hne hreg
    rw [h.calls q] at hc'
    rcases hreg.executed h with hreg | ⟨rfl, rfl⟩
    · exact ha.waiting q q' c' l hc' hl hne hreg
    · -- the login would have two calls in flight, on one process
      have hq : q = q' := by
        have hat := (hw.inFlight_local ⟨⟨c', hc', hl⟩, rfl⟩).1.2
        have hok : Local w.own q' l.user := hw.calls q' _ h.mem_calls
        exact appInfo_injective (hat.symm.trans hok.1.2)
      subst hq
      have hmem : ∀ d ∈ (w.procs q).calls, d.login = some l →
          d ∈ (w.procs q).calls.filter (Call.ofLogin l.user.ref) :=
        fun d hd hd' => List.mem_filter.mpr ⟨hd, Call.ofLogin_iff.mpr ⟨l, hd', rfl⟩⟩
      exact hne (mem_short (ha.once q l.user.ref) (hmem c' hc' hl) (hmem _ h.mem_calls rfl))

theorem LoginsApart.handled (ha : LoginsApart tr w) (hw : WF w) (hs : step w e = some v)
    (h : Handled w v e p i x) (hn : ∀ q, ∃ ws, Numbered (w.procs q) ws) :
    LoginsApart (tr ++ [(w, e)]) v := by
  have hyoung : ∀ c ∈ (w.procs p).calls, ∀ l, c.login = some l →
      l.user.ref < (w.procs p).nextRef := by
    intro c hc l hl
    obtain ⟨ws, hnum⟩ := hn p
    refine hnum.bound l.user (Or.inl (Or.inr ⟨c, hc, ?_⟩))
    simp [Call.users, hl]
  constructor
  · intro q ref
    by_cases hq : q = p
    · subst hq
      refine h.one_chain hw _ ?_ (ha.once q ref) ?_
      · intro c hc
        obtain ⟨l, hl, _⟩ := Call.ofLogin_iff.mp hc
        exact Call.chained_of_login hl
      · intro c ho hc
        obtain ⟨l, hl, rfl⟩ := Call.ofLogin_iff.mp hc
        rcases ho.login_cases hl with ⟨c₀, r, hi, hc₀, _⟩ | ⟨href, _⟩
        · exact Or.inl ⟨c₀, r, hi, Call.ofLogin_iff.mpr ⟨l, hc₀, rfl⟩⟩
        · refine Or.inr (List.filter_eq_nil_iff.mpr ?_)
          intro d hd hof
          obtain ⟨l', hl', heq⟩ := Call.ofLogin_iff.mp hof
          have hlt := hyoung d hd l' hl'
          rw [heq, href, h.nextRef] at hlt
          exact lt_irrefl _ hlt
    · obtain ⟨_, _, hsent, hans⟩ := h.other_conns q hq
      simp only [Proc.calls, hsent, hans]
      exact ha.once q ref
  · intro q l hreg
    obtain ⟨happ, hlt⟩ := ha.written q l (hreg.handled h)
    exact ⟨happ, lt_of_lt_of_le hlt (step_nextRef hs hw q)⟩
  · intro q q' c l hc hl hne hreg
    have hreg' := hreg.handled h
    rcases h.call_cases hw q c hc with hc | ⟨rfl, ho⟩
    · exact ha.waiting q q' c l hc hl hne hreg'
    · rcases ho.login_cases hl with ⟨c₀, r, hi, hc₀, hne₀⟩ | ⟨href, happ⟩
      · exact ha.waiting q q' c₀ l (h.reply_call hi) hc₀ hne₀ hreg'
      · -- the object of a new login is younger than those of all logins registered here
        obtain ⟨happ', hlt⟩ := ha.written q' l hreg'
        have hq : q' = q := appInfo_injective (happ'.symm.trans happ)
        rw [hq, href, h.nextRef] at hlt
        exact lt_irrefl _ hlt

/-! ### Records -/

/- What is known of the logins of a run: those under way were asked for, and a record
was written by one that was. -/
structure Grounded (tr : List (World × Event)) (w : World) : Prop where
  apart : LoginsApart tr w
  asked : ∀ p c l, c ∈ (w.procs p).calls → c.login = some l →
    LoginAsked tr l.user.socketId l.user.userId
  records : ∀ k value, IsOnlineKey k → w.db.get k = some value → ∃ q l, k = l.user.key ∧
    value = .hash l.user.record ∧ LoginAsked tr l.user.socketId l.user.userId ∧ LoginWritten tr q l

theorem Grounded.executed (hg : Grounded tr w) (hw : WF w) (hs : step w e = some v)
    (h : Executed w v e p c r) (hn : ∀ q, ∃ ws, Numbered (w.procs q) ws) :
    Grounded (tr ++ [(w, e)]) v where
  apart := hg.apart.executed hw hs h hn
  asked := by
    intro q c' l hc' hl
    rw [h.calls q] at hc'
    exact (hg.asked q c' l hc' hl).append _
  records := by
    intro k value hk hget
    have kept : w.db.get k = some value → ∃ q l, k = l.user.key ∧ value = .hash l.user.record ∧
        LoginAsked (tr ++ [(w, e)]) l.user.socketId l.user.userId ∧
          LoginWritten (tr ++ [(w, e)]) q l := by
      intro hold
      obtain ⟨q, l, hkey, hvalue, hasked, hreg⟩ := hg.records k value hk hold
      exact ⟨q, l, hkey, hvalue, hasked.append _, hreg.append _⟩
    rcases h.db with ⟨order, he, _, _⟩ | ⟨message, _, hdb, _⟩
    · rcases h.online hw k hk with hsame | ⟨l, rfl, rfl, hset⟩ | ⟨user, _, _, hnone⟩
      · exact kept (hsame ▸ hget)
      · rw [hset] at hget
        refine ⟨p, l, rfl, (Option.some.inj hget).symm,
          (hg.asked p _ l h.mem_calls rfl).append _, (w, e), by simp, order, he, h.sent_head⟩
      · rw [hnone] at hget
        cases hget
    · exact kept (hdb ▸ hget)

/-- The login of a call was asked for. -/
theorem Grounded.origin_asked (hg : Grounded tr w) (h : Handled w v e p i x) {l : LoginReq}
    (ho : Origin p i x c) (hl : c.login = some l) :
    LoginAsked (tr ++ [(w, e)]) l.user.socketId l.user.userId := by
  rcases ho.login hl with ⟨c₀, r, hi, hc₀⟩ | ⟨req, now, ⟨hi, hroute⟩, hid, _⟩
  · exact (hg.asked p c₀ l (h.reply_call hi) hc₀).append _
  · have harr := h.arrives
    rw [hi] at harr
    exact ⟨(w, e), by simp, p, req, now, harr.1, hroute, hid⟩

theorem Grounded.handled (hg : Grounded tr w) (hw : WF w) (hs : step w e = some v)
    (h : Handled w v e p i x) (hn : ∀ q, ∃ ws, Numbered (w.procs q) ws) :
    Grounded (tr ++ [(w, e)]) v where
  apart := hg.apart.handled hw hs h hn
  asked := by
    intro q c l hc hl
    rcases h.call_cases hw q c hc with hc | ⟨rfl, ho⟩
    · exact (hg.asked q c l hc hl).append _
    · exact hg.origin_asked h ho hl
  records := by
    intro k value hk hget
    rw [h.db] at hget
    obtain ⟨q, l, hkey, hvalue, hasked, hreg⟩ := hg.records k value hk hget
    exact ⟨q, l, hkey, hvalue, hasked.append _, hreg.append _⟩

end

theorem Grounded.initial : Grounded [] World.initial where
  apart := by
    refine ⟨fun p ref => Nat.zero_le 1, ?_, ?_⟩
    · rintro p l ⟨a, ha, _⟩
      cases ha
    · intro p q c l hc
      cases hc
  asked := by
    intro p c l hc
    cases hc
  records := by
    intro k value _ hget
    cases hget

theorem grounded_path {tr : List (World × Event)} {w : World}
    (h : Run.Path step World.initial tr w) : WF w ∧ Grounded tr w := by
  induction h with
  | nil => exact ⟨WF.initial, Grounded.initial⟩
  | snoc e hpath hs ih =>
    obtain ⟨hw, hg⟩ := ih
    have hn := fun q => Exists.intro _ (run_numbered hpath q).2
    refine ⟨hw.step hs, ?_⟩
    rcases step_cases _ _ e hs with ⟨q, c, r, hx⟩ | ⟨q, i, x, hx⟩
    · exact hg.executed hw hs hx hn
    · exact hg.handled hw hs hx hn

end NodeServer

import NodeServer.Proof.Identity

/-! # Single login

A login looks its user up twice: to kick the sessions of other processes, and
to close those of its own. The two lookups cover every session there is as long
as no session of the same user appears in between, that is, as long as logins
of one user do not overlap. -/

namespace NodeServer

open DBModelKeys

/-! ### Sessions -/

/- An open connection with an online record of user `u`. -/
def Session (w : World) (u : Str) (p : Pid) (s : Str) : Prop :=
  (w.procs p).ws s = some .opened ∧ w.db.get (uniquePattern u s) ≠ none

def SingleSession (w : World) (u : Str) : Prop :=
  ∀ p s q t, Session w u p s → Session w u q t → s = t

/- A kick for the session is under way, and will find its user. -/
def Doomed (w : World) (u : Str) (p : Pid) (s : Str) : Prop :=
  (∃ q, ⟨appInfo p, s, .kick u⟩ ∈ (w.procs q).outbox) ∧ (w.procs p).userList.get s ≠ none

/-! ### Logins of one user in flight -/

def Call.isLoginOf (u : Str) (c : Call) : Bool :=
  match c.login with
  | some l => l.user.userId = u
  | none => false

def flights (w : World) (u : Str) (p : Pid) : List Call :=
  (w.procs p).calls.filter (Call.isLoginOf u)

theorem isLoginOf_iff (u : Str) (c : Call) :
    c.isLoginOf u = true ↔ ∃ l, c.login = some l ∧ l.user.userId = u := by
  unfold Call.isLoginOf
  cases c.login with
  | none => simp
  | some l => simp

structure OneFlight (w : World) (u : Str) : Prop where
  each : ∀ p, (flights w u p).length ≤ 1
  one : ∀ p q, flights w u p ≠ [] → flights w u q ≠ [] → p = q

/- A login of `u` that passes the check starts while no other login of `u` is in
flight on any process, and the `KEYS` of its lookups do not fail. -/
def LoginsAlone (u : Str) (w : World) : Event → Prop
  | .message p s req _ => getRouterByName req.route = some (.handler .login) →
      req.userId = some u → (w.procs p).userList.get s = none → ∀ q, flights w u q = []
  | .exec p (.failed _) => ∀ userId next, (w.procs p).sent.head? = some (.lookupKeys userId next) →
      (Call.lookupKeys userId next).isLoginOf u = false
  | _ => True

theorem isLoginOf_chained (u : Str) (c : Call) (h : c.isLoginOf u = true) : c.chained = true := by
  obtain ⟨l, hl, _⟩ := (isLoginOf_iff u c).mp h
  unfold Call.chained
  split
  · cases hl
  · cases hl
  · rfl

section

variable {w v : World} {e : Event} {p : Pid} {i : Input} {x : Proc} {u : Str}

theorem Handled.flight_origin (h : Handled w v e p i x) (hc : LoginsAlone u w e) {c : Call}
    (ho : Origin p i x c) (hu : c.isLoginOf u = true) :
    (∃ c₀ r, i = .reply c₀ r ∧ c₀.isLoginOf u = true) ∨ ∀ q, flights w u q = [] := by
  obtain ⟨l, hl, hlu⟩ := (isLoginOf_iff u c).mp hu
  rcases ho.login hl with ⟨c₀, r, hi, hl₀⟩ | ⟨req, now, ⟨hi, hroute⟩, hreq, hnone⟩
  · exact Or.inl ⟨c₀, r, hi, (isLoginOf_iff u c₀).mpr ⟨l, hl₀, hlu⟩⟩
  · have ha := h.arrives
    rw [hi] at ha
    rw [ha.1] at hc
    rw [h.userList] at hnone
    rw [hlu] at hreq
    exact Or.inr (hc hroute hreq hnone)

theorem Handled.flights_other (h : Handled w v e p i x) (q : Pid) (hq : q ≠ p) :
    flights v u q = flights w u q := by
  obtain ⟨_, _, hsent, hans⟩ := h.other_conns q hq
  simp only [flights, Proc.calls, hsent, hans]

theorem OneFlight.handled (hw : WF w) (hf : OneFlight w u) (hc : LoginsAlone u w e)
    (h : Handled w v e p i x) : OneFlight v u := by
  have hback : ∀ q, flights v u q ≠ [] → flights w u q ≠ [] ∨ (q = p ∧ ∀ t, flights w u t = []) := by
    intro q hq
    obtain ⟨c, hmem⟩ := List.exists_mem_of_ne_nil _ hq
    obtain ⟨hcall, hcu⟩ := List.mem_filter.mp hmem
    rcases h.call_cases hw q c hcall with hold | ⟨rfl, ho⟩
    · exact Or.inl (List.ne_nil_of_mem (List.mem_filter.mpr ⟨hold, hcu⟩))
    · rcases h.flight_origin hc ho hcu with ⟨c₀, r, hi, hc₀⟩ | hnone
      · exact Or.inl (List.ne_nil_of_mem (List.mem_filter.mpr ⟨h.reply_call hi, hc₀⟩))
      · exact Or.inr ⟨rfl, hnone⟩
  refine ⟨?_, ?_⟩
  · intro q
    by_cases hqp : q = p
    · subst hqp
      refine h.one_chain hw (Call.isLoginOf u) (isLoginOf_chained u) (hf.each q) ?_
      intro c ho hcu
      rcases h.flight_origin hc ho hcu with hcont | hnone
      · exact Or.inl hcont
      · exact Or.inr (hnone q)
    · rw [h.flights_other q hqp]
      exact hf.each q
  · intro q t hq ht
    rcases hback q hq with hq | ⟨hqp, hnone⟩
    · rcases hback t ht with ht | ⟨_, hnone⟩
      · exact hf.one q t hq ht
      · exact absurd (hnone q) hq
    · rcases hback t ht with ht | ⟨htp, _⟩
      · exact absurd (hnone t) ht
      · rw [hqp, htp]

end

theorem OneFlight.executed {w v : World} {e : Event} {q : Pid} {c : Call} {r : Store.Reply}
    {u : Str} (hf : OneFlight w u) (h : Executed w v e q c r) : OneFlight v u := by
  have hsame : ∀ p, flights v u p = flights w u p := by
    intro p
    simp only [flights, h.calls p]
  refine ⟨?_, ?_⟩
  · intro p
    rw [hsame]
    exact hf.each p
  · intro p t
    rw [hsame, hsame]
    exact hf.one p t

/-! ### What the end of a lookup does -/

theorem CtxLe.not_open {x y : Proc} (h : CtxLe x y) {s : Str} (hx : x.ws s ≠ some .opened) :
    y.ws s ≠ some .opened := by
  intro hy
  have hs := h s
  obtain ⟨d, hd, hdo⟩ := Option.map_eq_some_iff.mp hy
  rw [hd] at hs
  cases hc : x.conns.get s with
  | none =>
    rw [hc] at hs
    exact hs
  | some c =>
    rw [hc] at hs
    have hle : c.Le d := hs
    rcases hle.ws with hws | ⟨_, hws⟩
    · apply hx
      simp only [Proc.ws, hc, Option.map_some, ← hws, hdo]
    · rw [hws] at hdo
      cases hdo

theorem wsClose_not_open (x : Proc) (s : Str) : (x.wsClose s).ws s ≠ some .opened := by
  simp only [Proc.ws, Proc.wsClose, Proc.setConn, Table.get_modify, if_true, Option.map_map]
  intro h
  obtain ⟨c, _, hc⟩ := Option.map_eq_some_iff.mp h
  by_cases ho : c.ws = .opened
  · simp [ho] at hc
  · simp [ho] at hc

theorem kickOld_closes (userList : List User) (x : Proc) (user : User) (hu : user ∈ userList)
    (hws : user.websocket = true) : (x.kickOld userList).ws user.socketId ≠ some .opened := by
  induction userList generalizing x with
  | nil => cases hu
  | cons a rest ih =>
    have hrest : ∀ y : Proc, y.kickOld rest = rest.foldl
        (fun y user => if user.websocket then y.wsClose user.socketId else y) y := fun _ => rfl
    simp only [Proc.kickOld, List.foldl_cons]
    rcases List.mem_cons.mp hu with rfl | hu
    · rw [if_pos hws, ← hrest]
      exact (Emits.kickOld (x.wsClose user.socketId) rest).ctx.not_open (wsClose_not_open x _)
    · exact ih _ hu

theorem Resolves.react {p : Pid} {i : Input} {x : Proc} {next : LookupFor} {userList : List User}
    (h : Resolves i x next userList) :
    ∃ x₁, Emits [] x x₁ ∧ (∀ s, x₁.ws s = x.ws s) ∧
      NodeServer.react p i x = x₁.lookupDone p next userList := by
  rcases h with ⟨userId, r, rfl, hr, rfl⟩ | ⟨key, found, res, rfl, rfl⟩
  · refine ⟨x, Emits.refl x, fun _ => rfl, ?_⟩
    show x.onLookupKeys p next r = _
    unfold Proc.onLookupKeys
    split
    · next res =>
      cases res with
      | nil => rfl
      | cons k ks => exact absurd rfl (hr k ks)
    · rfl
  · exact ⟨x.newRef, Emits.newRef x, fun _ => rfl, rfl⟩

section

variable {w v : World} {e : Event} {q : Pid} {i : Input} {x : Proc} {u : Str}

theorem Handled.forwards (h : Handled w v e q i x) {notice : Notice} {after : AfterSend}
    {userList : List User} (hr : Resolves i x (.notice notice after) userList) (user : User)
    (hu : user ∈ userList) (happ : user.appInfo ≠ appInfo q) :
    ⟨user.appInfo, user.socketId, notice⟩ ∈ (v.procs q).outbox := by
  obtain ⟨x₁, hx, hws, hreact⟩ := hr.react (p := q)
  have heff := notice_effect q i x x₁ notice after userList hx hws hr
  rw [h.after, hreact]
  show _ ∈ ((x₁.sendAll q notice userList).afterSend after).outbox
  rw [heff.outbox]
  refine List.mem_append_right _ (List.mem_map.mpr ⟨user, ?_, rfl⟩)
  exact List.mem_filter.mpr ⟨hu, decide_eq_true happ⟩

theorem Handled.closes (h : Handled w v e q i x) {l : LoginReq} {userList : List User}
    (hr : Resolves i x (.loginKick l) userList) (user : User) (hu : user ∈ userList)
    (hws : user.websocket = true) : (v.procs q).ws user.socketId ≠ some .opened := by
  obtain ⟨x₁, _, _, hreact⟩ := hr.react (p := q)
  rw [h.after, hreact]
  exact kickOld_closes userList x₁ user hu hws

theorem Handled.kicked (h : Handled w v e q i x) (hw : WF w) {s : Str}
    (hi : i = .packet ⟨appInfo q, s, .kick u⟩) (hin : (w.procs q).userList.get s ≠ none)
    (hopen : (w.procs q).ws s = some .opened) : (v.procs q).ws s ≠ some .opened := by
  obtain ⟨user, hu⟩ := Option.ne_none_iff_exists'.mp hin
  have hsock := (hw.users q s user hu).1
  rw [← h.userList] at hu
  have hx : (x.bumpNotice user).ws s = some .opened := by
    simp only [Proc.ws, Proc.bumpNotice, h.conns]
    exact hopen
  rw [h.after, hi]
  show (x.onPacket ⟨appInfo q, s, .kick u⟩).ws s ≠ some .opened
  simp only [Proc.onPacket, Proc.getUserWithSocket, hu, hsock, Proc.wsSend, hx, if_true,
    Notice.isKick]
  exact wsClose_not_open _ s

theorem Handled.session_back (h : Handled w v e q i x) (hw : WF w) {p : Pid} {s : Str}
    (hs : Session v u p s) : Session w u p s := by
  obtain ⟨hopen, hrec⟩ := hs
  rw [h.db] at hrec
  rcases h.open_back hw p s hopen with hold | ⟨rfl, now, hi⟩
  · exact ⟨hold, hrec⟩
  · obtain ⟨hnew, hid⟩ := h.fresh s now hi
    exact absurd (.record u hrec) (hw.unmentioned (p := p) hnew hid)

/-- A kick under way stays so until it has closed its session. -/
theorem Handled.doomed_stays (h : Handled w v e q i x) (hw : WF w) (hl : AllLive w) {p : Pid}
    {s : Str} (hs : Session v u p s) (hd : Doomed w u p s) : Doomed v u p s := by
  have hold := (h.session_back hw hs).1
  obtain ⟨⟨t, hm⟩, hin⟩ := hd
  refine ⟨?_, h.user_stays hw (hl p s hold) hold hs.1 hin⟩
  rcases h.delivered t _ hm with hi | ⟨rfl, hm⟩ | ⟨_, hm⟩
  · have ha := h.arrives
    rw [hi] at ha
    have hpq : p = q := appInfo_injective ha.1
    subst hpq
    exact absurd hs.1 (h.kicked hw hi hin hold)
  · obtain ⟨news, outs, heff⟩ := h.effect hw
    refine ⟨t, ?_⟩
    rw [heff.outbox]
    exact List.mem_append_left _ hm
  · exact ⟨t, hm⟩

end

/-! ### The stages of a login -/

/-- The lookup has the session's key still to read, or has found its user. -/
def Listed (u : Str) (keys : List Str) (found : List User) (s : Str) : Prop :=
  uniquePattern u s ∈ keys ∨ ∃ user ∈ found, user.socketId = s

/- What a lookup of a login on `P` has made sure of. The first one lists every
session; at the second one only sessions of `P` itself can be without a kick. -/
def Accounted (w : World) (u : Str) (P : Pid) (next : LookupFor) (keys : List Str)
    (found : List User) : Prop :=
  ∀ p s, Session w u p s →
    match next with
    | .loginKick _ => Doomed w u p s ∨ (p = P ∧ Listed u keys found s)
    | _ => Listed u keys found s

def SentOk (w : World) (u : Str) (P : Pid) : Call → Prop
  | .lookupKeys _ (.loginKick _) => ∀ p s, Session w u p s → Doomed w u p s ∨ p = P
  | .lookupHash key rest found next => Accounted w u P next (key :: rest) found
  | .loginSet _ => ∀ p s, Session w u p s → Doomed w u p s
  | _ => True

def AnsweredOk (w : World) (u : Str) (P : Pid) : Call → Store.Reply → Prop
  | .lookupKeys _ next, r => ∃ keys, r = .array keys ∧ Accounted w u P next keys []
  | .lookupHash _ rest found next, r => ∀ res, r = .hash res →
      Accounted w u P next rest (found ++ [createUserWithRedis 0 res])
  | .loginSet l, _ => ∀ p s, Session w u p s → s = l.user.socketId ∨ Doomed w u p s
  | _, _ => True

structure Exclusive (w : World) (u : Str) : Prop where
  flight : OneFlight w u
  pair : ∀ p s q t, Session w u p s → Session w u q t → s ≠ t → Doomed w u p s ∨ Doomed w u q t
  sent : ∀ P c, c ∈ (w.procs P).sent → c.isLoginOf u = true → SentOk w u P c
  answered : ∀ P c r, (c, r) ∈ (w.procs P).answered → c.isLoginOf u = true → AnsweredOk w u P c r

/-! Each stage survives while sessions only end and kicks stay under way. -/

section

variable {w v : World} {u : Str} (hsess : ∀ p s, Session v u p s → Session w u p s)
  (hdoom : ∀ p s, Session v u p s → Doomed w u p s → Doomed v u p s)
include hsess hdoom

theorem Accounted.mono {P : Pid} {next : LookupFor} {keys : List Str} {found : List User}
    (h : Accounted w u P next keys found) : Accounted v u P next keys found := by
  intro p s hs
  have hold := h p s (hsess p s hs)
  cases next with
  | loginKick l =>
    rcases hold with hd | hl
    · exact Or.inl (hdoom p s hs hd)
    · exact Or.inr hl
  | notice notice after => exact hold
  | sendMsg user msg => exact hold

theorem SentOk.mono {P : Pid} {c : Call} (h : SentOk w u P c) : SentOk v u P c := by
  cases c with
  | lookupKeys userId next =>
    cases next with
    | loginKick l =>
      intro p s hs
      rcases h p s (hsess p s hs) with hd | hp
      · exact Or.inl (hdoom p s hs hd)
      · exact Or.inr hp
    | notice notice after => trivial
    | sendMsg user msg => trivial
  | lookupHash key rest found next =>
    have hacc : Accounted w u P next (key :: rest) found := h
    exact hacc.mono hsess hdoom
  | loginSet l => exact fun p s hs => hdoom p s hs (h p s (hsess p s hs))
  | _ => trivial

theorem AnsweredOk.mono {P : Pid} {c : Call} {r : Store.Reply} (h : AnsweredOk w u P c r) :
    AnsweredOk v u P c r := by
  cases c with
  | lookupKeys userId next =>
    obtain ⟨keys, hr, hacc⟩ := h
    exact ⟨keys, hr, hacc.mono hsess hdoom⟩
  | lookupHash key rest found next =>
    intro res hr
    have hacc := h res hr
    exact Accounted.mono hsess hdoom hacc
  | loginSet l =>
    intro p s hs
    rcases h p s (hsess p s hs) with he | hd
    · exact Or.inl he
    · exact Or.inr (hdoom p s hs hd)
  | _ => trivial

end

/-! ### Redis steps -/

section

variable {w v : World} {e : Event} {P : Pid} {c : Call} {r : Store.Reply} {u : Str}

theorem Executed.session_cases (h : Executed w v e P c r) (hw : WF w) {p : Pid} {s : Str}
    (hs : Session v u p s) :
    Session w u p s ∨ ∃ l, c = .loginSet l ∧ l.user.userId = u ∧ l.user.socketId = s := by
  obtain ⟨hopen, hrec⟩ := hs
  rw [h.ws] at hopen
  rcases h.online hw _ (IsOnlineKey.user u s) with hdb | ⟨l, rfl, hkey, _⟩ | ⟨user, _, _, hnone⟩
  · rw [hdb] at hrec
    exact Or.inl ⟨hopen, hrec⟩
  · have hloc : Local w.own P l.user := hw.calls P _ h.mem_calls
    exact Or.inr ⟨l, rfl, hw.key_inj hloc.1.1 (own_of_ws hopen) hkey⟩
  · exact absurd hnone hrec

theorem Executed.doomed (h : Executed w v e P c r) {p : Pid} {s : Str} (hd : Doomed w u p s) :
    Doomed v u p s := by
  obtain ⟨⟨q, hm⟩, hin⟩ := hd
  refine ⟨⟨q, ?_⟩, by rwa [h.users p]⟩
  by_cases hq : q = P
  · subst hq
    rwa [h.outbox]
  · rwa [h.others q hq]

theorem Executed.alone (h : Executed w v e P c r) (hf : OneFlight w u) (hcu : c.isLoginOf u = true) :
    (∀ Q c', c' ∈ (v.procs Q).sent → c'.isLoginOf u = false) ∧
      ∀ Q c' r', (c', r') ∈ (w.procs Q).answered → c'.isLoginOf u = false := by
  have hmem : c ∈ flights w u P := List.mem_filter.mpr ⟨h.mem_calls, hcu⟩
  have honly : ∀ Q c', c' ∈ flights w u Q → Q = P :=
    fun Q c' hc' => hf.one Q P (List.ne_nil_of_mem hc') (List.ne_nil_of_mem hmem)
  have hsplit : flights w u P = ((w.procs P).answered.map Prod.fst).filter (Call.isLoginOf u) ++
      c :: (v.procs P).sent.filter (Call.isLoginOf u) := by
    simp only [flights, Proc.calls, h.sent, List.filter_append, List.filter_cons, hcu, if_true]
  have hlen := hf.each P
  rw [hsplit, List.length_append, List.length_cons] at hlen
  refine ⟨?_, ?_⟩
  · intro Q c' hc'
    by_contra hne
    have hcu' : c'.isLoginOf u = true := by simpa using hne
    have hQ : Q = P := by
      apply honly Q c'
      refine List.mem_filter.mpr ⟨?_, hcu'⟩
      rw [← h.calls Q]
      exact List.mem_append_right _ hc'
    subst hQ
    have hpos := List.length_pos_of_mem (List.mem_filter.mpr ⟨hc', hcu'⟩)
    omega
  · intro Q c' r' hm
    by_contra hne
    have hcu' : c'.isLoginOf u = true := by simpa using hne
    have hc' : c' ∈ (w.procs Q).answered.map Prod.fst := List.mem_map_of_mem hm
    have hQ : Q = P :=
      honly Q c' (List.mem_filter.mpr ⟨List.mem_append_left _ hc', hcu'⟩)
    subst hQ
    have hpos := List.length_pos_of_mem (List.mem_filter.mpr ⟨hc', hcu'⟩)
    omega

end

section

variable {w v : World} {e : Event} {P : Pid} {c : Call} {r : Store.Reply} {u : Str}

theorem Executed.answeredOk (h : Executed w v e P c r) (hw : WF w) (hplain : Glob.plain u)
    (hc : LoginsAlone u w e) (hcu : c.isLoginOf u = true) (hsent : SentOk w u P c) :
    AnsweredOk v u P c r := by
  have hok := hw.calls P c h.mem_calls
  obtain ⟨l, hl, hlu⟩ := (isLoginOf_iff u c).mp hcu
  have hback : (∀ l, c ≠ .loginSet l) → ∀ p s, Session v u p s → Session w u p s := by
    intro hne p s hs
    rcases h.session_cases hw hs with hs | ⟨l, hl, _⟩
    · exact hs
    · exact absurd hl (hne l)
  cases c with
  | lookupKeys userId next =>
    have huser : userId = u := by rw [hok.2 l hl, hlu]
    subst huser
    rcases h.db with ⟨order, _, _, hrun⟩ | ⟨message, he, _, _⟩
    · obtain ⟨hr, _, hmem⟩ := Store.keys_inOrder order _ w.db r hrun
      have hlist : ∀ p s, Session w userId p s → Listed userId order [] s := by
        intro p s ⟨_, hrec⟩
        refine Or.inl ((hmem _).mpr ⟨Option.ne_none_iff_exists'.mp hrec, ?_⟩)
        exact userIdPattern_self userId s hplain
      refine ⟨order, hr, ?_⟩
      intro p s hs
      have hold := hback (by simp) p s hs
      cases next with
      | notice notice after => exact hlist p s hold
      | loginKick l' =>
        rcases hsent p s hold with hd | hp
        · exact Or.inl (h.doomed hd)
        · exact Or.inr ⟨hp, hlist p s hold⟩
      | sendMsg user msg => exact hlist p s hold
    · rw [he] at hc
      have hno := hc userId next h.sent_head
      rw [hcu] at hno
      cases hno
  | lookupHash key rest found next =>
    intro res hr
    subst hr
    obtain ⟨rec, q, hq, hkey, hrec, _⟩ := h.read hw
    have hstep : ∀ p s, Session w u p s → Listed u (key :: rest) found s →
        Listed u rest (found ++ [createUserWithRedis 0 res]) s := by
      intro p s hs hlist
      rcases hlist with hk | ⟨user, hu, hus⟩
      · rcases List.mem_cons.mp hk with hk | hk
        · refine Or.inr ⟨createUserWithRedis 0 res, by simp, ?_⟩
          rw [hrec, createUserWithRedis_record]
          exact (hw.key_inj hq.1 (own_of_ws hs.1) (hkey.symm.trans hk.symm)).2
        · exact Or.inl hk
      · exact Or.inr ⟨user, List.mem_append_left _ hu, hus⟩
    intro p s hs
    have hold := hback (by simp) p s hs
    have hacc := hsent p s hold
    cases next with
    | notice notice after => exact hstep p s hold hacc
    | loginKick l' =>
      rcases hacc with hd | ⟨hp, hlist⟩
      · exact Or.inl (h.doomed hd)
      · exact Or.inr ⟨hp, hstep p s hold hlist⟩
    | sendMsg user msg => exact hstep p s hold hacc
  | loginSet l' =>
    intro p s hs
    rcases h.session_cases hw hs with hold | ⟨l₁, hl₁, _, hsock⟩
    · exact Or.inr (h.doomed (hsent p s hold))
    · cases hl₁
      exact Or.inl hsock.symm
  | _ => cases hl

theorem Exclusive.executed (hw : WF w) (hplain : Glob.plain u) (hx : Exclusive w u)
    (hc : LoginsAlone u w e) (h : Executed w v e P c r) : Exclusive v u := by
  have hmem : c ∈ (w.procs P).sent := by
    rw [h.sent]
    exact List.mem_cons_self ..
  have hsub : ∀ Q c', c' ∈ (v.procs Q).sent → c' ∈ (w.procs Q).sent := by
    intro Q c' hc'
    by_cases hQ : Q = P
    · subst hQ
      rw [h.sent]
      exact List.mem_cons_of_mem _ hc'
    · rwa [h.others Q hQ] at hc'
  by_cases hcu : c.isLoginOf u = true
  · obtain ⟨hnosent, hnoans⟩ := h.alone hx.flight hcu
    have hsentok := hx.sent P c hmem hcu
    refine ⟨hx.flight.executed h, ?_, ?_, ?_⟩
    · intro p s q t hs ht hne
      rcases h.session_cases hw hs with hs | ⟨l, rfl, _, hls⟩
      · rcases h.session_cases hw ht with ht | ⟨l, rfl, _, _⟩
        · rcases hx.pair p s q t hs ht hne with hd | hd
          · exact Or.inl (h.doomed hd)
          · exact Or.inr (h.doomed hd)
        · exact Or.inl (h.doomed (hsentok p s hs))
      · rcases h.session_cases hw ht with ht | ⟨l', hl', _, hlt⟩
        · exact Or.inr (h.doomed (hsentok q t ht))
        · cases hl'
          exact absurd (hls.symm.trans hlt) hne
    · intro Q c' hc' hcu'
      rw [hnosent Q c' hc'] at hcu'
      cases hcu'
    · intro Q c' r' hm hcu'
      rcases h.mem_answered Q c' r' hm with hm | ⟨rfl, rfl, rfl⟩
      · rw [hnoans Q c' r' hm] at hcu'
        cases hcu'
      · exact h.answeredOk hw hplain hc hcu hsentok
  · have hsess : ∀ p s, Session v u p s → Session w u p s := by
      intro p s hs
      rcases h.session_cases hw hs with hs | ⟨l, rfl, hlu, _⟩
      · exact hs
      · exact absurd ((isLoginOf_iff u _).mpr ⟨l, rfl, hlu⟩) hcu
    have hdoom : ∀ p s, Session v u p s → Doomed w u p s → Doomed v u p s :=
      fun _ _ _ hd => h.doomed hd
    refine ⟨hx.flight.executed h, ?_, ?_, ?_⟩
    · intro p s q t hs ht hne
      rcases hx.pair p s q t (hsess p s hs) (hsess q t ht) hne with hd | hd
      · exact Or.inl (h.doomed hd)
      · exact Or.inr (h.doomed hd)
    · intro Q c' hc' hcu'
      exact (hx.sent Q c' (hsub Q c' hc') hcu').mono hsess hdoom
    · intro Q c' r' hm hcu'
      rcases h.mem_answered Q c' r' hm with hm | ⟨_, rfl, _⟩
      · exact (hx.answered Q c' r' hm hcu').mono hsess hdoom
      · exact absurd hcu' hcu

end

/-! ### Inputs -/

theorem getUserWithRedis_socketId (x : Proc) (hk : x.Keyed) (res : List (Str × Str)) :
    (x.getUserWithRedis res).socketId = fieldOf res SocketIdKey := by
  unfold Proc.getUserWithRedis Proc.getUserWithSocket
  cases hu : x.userList.get (fieldOf res SocketIdKey) with
  | none => rfl
  | some user => exact hk _ user hu

theorem Accounted.replace {w : World} {u : Str} {P : Pid} {next : LookupFor} {keys : List Str}
    {found : List User} {a b : User} (hab : a.socketId = b.socketId)
    (h : Accounted w u P next keys (found ++ [a])) : Accounted w u P next keys (found ++ [b]) := by
  have hlist : ∀ s, Listed u keys (found ++ [a]) s → Listed u keys (found ++ [b]) s := by
    intro s hl
    rcases hl with hk | ⟨user, hu, hus⟩
    · exact Or.inl hk
    · rcases List.mem_append.mp hu with hu | hu
      · exact Or.inr ⟨user, List.mem_append_left _ hu, hus⟩
      · rw [List.mem_singleton.mp hu, hab] at hus
        exact Or.inr ⟨b, by simp, hus⟩
  intro p s hs
  have hold := h p s hs
  cases next with
  | loginKick l =>
    rcases hold with hd | ⟨hp, hl⟩
    · exact Or.inl hd
    · exact Or.inr ⟨hp, hlist s hl⟩
  | notice notice after => exact hlist s hold
  | sendMsg user msg => exact hlist s hold

section

variable {w v : World} {e : Event} {P : Pid} {i : Input} {x : Proc} {u : Str}

theorem Handled.resolved_accounted (h : Handled w v e P i x) (hw : WF w) (hx : Exclusive w u)
    {next : LookupFor} {userList : List User} {l : LoginReq} (hr : Resolves i x next userList)
    (hl : next.login = some l) (hlu : l.user.userId = u) : Accounted w u P next [] userList := by
  rcases hr with ⟨userId, r, hi, hne, rfl⟩ | ⟨key, found, res, hi, rfl⟩
  · have hcu : (Call.lookupKeys userId next).isLoginOf u = true :=
      (isLoginOf_iff u _).mpr ⟨l, hl, hlu⟩
    obtain ⟨keys, hrk, hacc⟩ := hx.answered P _ r (h.reply_mem _ _ hi) hcu
    cases keys with
    | nil => exact hacc
    | cons k ks => exact absurd hrk (hne k ks)
  · have hcu : (Call.lookupHash key [] found next).isLoginOf u = true :=
      (isLoginOf_iff u _).mpr ⟨l, hl, hlu⟩
    have hacc := hx.answered P _ _ (h.reply_mem _ _ hi) hcu res rfl
    exact Accounted.replace (getUserWithRedis_socketId x (h.keyed hw) res).symm hacc

/-- The session of a remote process that a login has found is kicked. -/
theorem Handled.dooms (h : Handled w v e P i x) (hw : WF w) (hl : AllLive w) (hx : Exclusive w u)
    {l : LoginReq} {notice : Notice} {userList : List User}
    (hr : Resolves i x (.notice notice (.login l)) userList) (hlu : l.user.userId = u) {p : Pid}
    {s : Str} (hs : Session w u p s) (hp : p ≠ P) (user : User) (hu : user ∈ userList)
    (hus : user.socketId = s) : Doomed v u p s := by
  obtain ⟨hnext, hfound⟩ := h.resolved hw _ userList hr
  obtain ⟨q, hq, _⟩ := hfound user hu
  have hqo : w.own q s := hus ▸ hq.1
  have hqp := hw.owner q p s hqo (own_of_ws hs.1)
  subst hqp
  have hremote : user.appInfo ≠ appInfo P := by
    rw [hq.2]
    exact fun he => hp (appInfo_injective he)
  have hnotice : notice = .kick u := by rw [hnext.2, hlu]
  have hout := h.forwards hr user hu hremote
  rw [hq.2, hus, hnotice] at hout
  refine ⟨⟨P, hout⟩, ?_⟩
  rw [(h.other_conns q hp).2.1]
  -- the session's own login is over: this one is the only one in flight
  rcases (hl q s hs.1).recorded u hs.2 with hin | ⟨l', r, hm, _, hl'u⟩
  · exact hin
  · obtain ⟨c, r', hi, hc⟩ := hr.login
    have hP : flights w u P ≠ [] :=
      List.ne_nil_of_mem (List.mem_filter.mpr ⟨h.reply_call hi, (isLoginOf_iff u c).mpr ⟨l, hc, hlu⟩⟩)
    have hQ : flights w u q ≠ [] := by
      refine List.ne_nil_of_mem (List.mem_filter.mpr
        ⟨List.mem_append_left _ (List.mem_map_of_mem hm), ?_⟩)
      exact (isLoginOf_iff u _).mpr ⟨l', rfl, hl'u⟩
    exact absurd (hx.flight.one q P hQ hP) hp

theorem Handled.sentOk (h : Handled w v e P i x) (hw : WF w) (hl : AllLive w) (hx : Exclusive w u)
    {c : Call} (ho : Origin P i x c) (hcu : c.isLoginOf u = true) : SentOk v u P c := by
  have hsess : ∀ p s, Session v u p s → Session w u p s := fun _ _ hs => h.session_back hw hs
  have hdoom : ∀ p s, Session v u p s → Doomed w u p s → Doomed v u p s :=
    fun _ _ hs hd => h.doomed_stays hw hl hs hd
  obtain ⟨l, hlog, hlu⟩ := (isLoginOf_iff u c).mp hcu
  cases ho with
  | loginStart s req now userId connectTime asks given fresh => trivial
  | loginAgain l' notice userList resolves =>
    cases hlog
    have hacc := h.resolved_accounted hw hx resolves rfl hlu
    intro p s hs
    by_cases hp : p = P
    · exact Or.inr hp
    · rcases hacc p s (hsess p s hs) with hk | ⟨user, hu, hus⟩
      · cases hk
      · exact Or.inl (h.dooms hw hl hx resolves hlu (hsess p s hs) hp user hu hus)
  | hashFirst userId next key rest replied =>
    have hcu₀ : (Call.lookupKeys userId next).isLoginOf u = true := hcu
    obtain ⟨keys, hkeys, hacc⟩ := hx.answered P _ _ (h.reply_mem _ _ replied) hcu₀
    cases hkeys
    exact Accounted.mono hsess hdoom hacc
  | hashNext key₀ next key rest userList res replied =>
    have hcu₀ : (Call.lookupHash key₀ (key :: rest) userList next).isLoginOf u = true := hcu
    have hacc := hx.answered P _ _ (h.reply_mem _ _ replied) hcu₀ res rfl
    have hacc' := Accounted.replace (getUserWithRedis_socketId x (h.keyed hw) res).symm hacc
    exact Accounted.mono hsess hdoom hacc'
  | loginSet l' userList resolves =>
    cases hlog
    have hacc := h.resolved_accounted hw hx resolves rfl hlu
    intro p s hs
    rcases hacc p s (hsess p s hs) with hd | ⟨rfl, hk | ⟨user, hu, hus⟩⟩
    · exact hdoom p s hs hd
    · cases hk
    · -- the lookup closed this socket
      have hws := h.resolved_live hw (hl p s (hsess p s hs).1) resolves user hu hus
      have hclosed := h.closes resolves user hu hws
      rw [hus] at hclosed
      exact absurd hs.1 hclosed
  | _ => cases hlog

theorem Exclusive.handled (hw : WF w) (hl : AllLive w) (hx : Exclusive w u)
    (hc : LoginsAlone u w e) (h : Handled w v e P i x) : Exclusive v u := by
  have hsess : ∀ p s, Session v u p s → Session w u p s := fun _ _ hs => h.session_back hw hs
  have hdoom : ∀ p s, Session v u p s → Doomed w u p s → Doomed v u p s :=
    fun _ _ hs hd => h.doomed_stays hw hl hs hd
  refine ⟨hx.flight.handled hw hc h, ?_, ?_, ?_⟩
  · intro p s q t hs ht hne
    rcases hx.pair p s q t (hsess p s hs) (hsess q t ht) hne with hd | hd
    · exact Or.inl (hdoom p s hs hd)
    · exact Or.inr (hdoom q t ht hd)
  · intro Q c hm hcu
    rcases h.sent_cases hw Q c hm with hm | ⟨rfl, ho⟩
    · exact (hx.sent Q c hm hcu).mono hsess hdoom
    · exact h.sentOk hw hl hx ho hcu
  · intro Q c r hm hcu
    exact (hx.answered Q c r (h.answered_sub hw Q _ hm) hcu).mono hsess hdoom

end

/-! ### Runs without overlapping logins of one user -/

theorem exclusive_reach {u : Str} {w : World} (hplain : Glob.plain u)
    (h : Run.Reach step (LoginsAlone u) World.initial w) :
    WF w ∧ AllLive w ∧ Exclusive w u := by
  refine Run.Reach.invariant (fun w => WF w ∧ AllLive w ∧ Exclusive w u) ?_ ?_ h
  · refine ⟨WF.initial, ?_, ⟨⟨?_, ?_⟩, ?_, ?_, ?_⟩⟩
    · intro p s ho
      cases ho
    · intro p
      exact Nat.zero_le 1
    · intro p q hp
      exact absurd rfl hp
    · intro p s q t hs
      exact absurd rfl hs.2
    · intro P c hm
      cases hm
    · intro P c r hm
      cases hm
  · intro v e v' ⟨hw, hl, hx⟩ hc hs
    refine ⟨hw.step hs, hl.step hw hs, ?_⟩
    rcases step_cases v v' e hs with ⟨q, c, r, hy⟩ | ⟨q, i, x, hy⟩
    · exact hx.executed hw hplain hc hy
    · exact hx.handled hw hl hc hy

theorem single_login (u : Str) (w : World) (halnum : ∀ c ∈ u, c.isAlphanum = true)
    (hreach : Run.Reach step (LoginsAlone u) World.initial w) (hquiet : Quiescent w) :
    SingleSession w u := by
  obtain ⟨_, _, hx⟩ := exclusive_reach (plain_of_alphanum u halnum) hreach
  intro p s q t hs ht
  by_contra hne
  have hnone : ∀ r v, ¬ Doomed w u r v := by
    intro r v ⟨⟨o, hm⟩, _⟩
    rw [(hquiet o).2.2.1] at hm
    cases hm
  rcases hx.pair p s q t hs ht hne with hd | hd
  · exact hnone p s hd
  · exact hnone q t hd

/-! ### A login that takes over a session, and two that overlap -/

def loginsAloneTest (ps : List Pid) (u : Str) (w : World) : Event → Bool
  | .message p s req _ =>
    !(getRouterByName req.route = some (.handler .login) ∧ req.userId = some u ∧
      (w.procs p).userList.get s = none) || ps.all fun q => (flights w u q).isEmpty
  | .exec _ (.failed _) => false
  | _ => true

theorem loginsAloneTest_sound (ps : List Pid) (u : Str) (w : World) (e : Event)
    (hidle : ∀ q, q ∉ ps → w.procs q = Proc.initial) (h : loginsAloneTest ps u w e = true) :
    LoginsAlone u w e := by
  cases e with
  | message p s req now =>
    intro hroute hreq hnone q
    simp only [loginsAloneTest, hroute, hreq, hnone, and_self, decide_true, Bool.not_true,
      Bool.false_or, List.all_eq_true, List.isEmpty_iff] at h
    by_cases hq : q ∈ ps
    · exact h q hq
    · simp only [flights, hidle q hq]
      rfl
  | exec p outcome =>
    cases outcome with
    | done order => trivial
    | failed message => cases h
  | _ => trivial

/- B logs in on process 1 while A's session is on process 0. -/
def takeoverTrace : List Event :=
  [.connect 0 ['A'] 1, .connect 1 ['B'] 2, .message 0 (socketIdOf ['A']) (loginRequest ['u']) 3,
    .exec 0 (.done []), .reply 0, .exec 0 (.done []), .reply 0, .exec 0 (.done []), .reply 0,
    .message 1 (socketIdOf ['B']) (loginRequest ['u']) 4,
    .exec 1 (.done [uniquePattern ['u'] (socketIdOf ['A'])]), .reply 1, .exec 1 (.done []), .reply 1,
    .exec 1 (.done [uniquePattern ['u'] (socketIdOf ['A'])]), .reply 1, .exec 1 (.done []), .reply 1,
    .exec 1 (.done []), .reply 1, .deliver 1 0 0, .wsClose 0 (socketIdOf ['A']),
    .exec 0 (.done []), .reply 0]

theorem single_login_takeover :
    SingleSession (Run.ends step World.initial takeoverTrace) ['u'] :=
  single_login ['u'] _ (List.forall_mem_singleton.mpr rfl)
    (reach_of_test [0, 1] (loginsAloneTest [0, 1] ['u']) (loginsAloneTest_sound [0, 1] ['u'])
      takeoverTrace (by decide +kernel) (by decide +kernel))
    (quiescent_ends takeoverTrace _ (Run.runs_ends (by decide +kernel)) (by decide +kernel))

/- Both logins look the user up before either has written its record. -/
def twoLoginsTrace : List Event :=
  [.connect 0 ['A'] 1, .connect 1 ['B'] 2, .message 0 (socketIdOf ['A']) (loginRequest ['u']) 3,
    .message 1 (socketIdOf ['B']) (loginRequest ['u']) 4,
    .exec 0 (.done []), .exec 1 (.done []), .reply 0, .reply 1,
    .exec 0 (.done []), .exec 1 (.done []), .reply 0, .reply 1,
    .exec 0 (.done []), .exec 1 (.done []), .reply 0, .reply 1]

theorem two_sessions_of_one_user :
    ¬ ∀ (u : Str) (w : World), (∀ c ∈ u, c.isAlphanum = true) → Reachable w → Quiescent w →
      SingleSession w u := by
  intro hall
  obtain ⟨hrun, hdone, hopenA, hA, hopenB, hB⟩ :
      (Run.runs step World.initial twoLoginsTrace).isSome = true ∧
      ((twoLoginsTrace.flatMap Event.pids).all fun p =>
        ((Run.ends step World.initial twoLoginsTrace).procs p).quiet) = true ∧
      ((Run.ends step World.initial twoLoginsTrace).procs 0).ws (socketIdOf ['A']) = some .opened ∧
      ((Run.ends step World.initial twoLoginsTrace).db.get
        (uniquePattern ['u'] (socketIdOf ['A']))).isSome = true ∧
      ((Run.ends step World.initial twoLoginsTrace).procs 1).ws (socketIdOf ['B']) = some .opened ∧
      ((Run.ends step World.initial twoLoginsTrace).db.get
        (uniquePattern ['u'] (socketIdOf ['B']))).isSome = true := by decide +kernel
  have hquiet := quiescent_ends twoLoginsTrace _ (Run.runs_ends hrun) hdone
  have hone := hall ['u'] _ (List.forall_mem_singleton.mpr rfl) (Run.reach_ends twoLoginsTrace hrun) hquiet
  have heq := hone 0 (socketIdOf ['A']) 1 (socketIdOf ['B'])
    ⟨hopenA, Option.isSome_iff_ne_none.mp hA⟩ ⟨hopenB, Option.isSome_iff_ne_none.mp hB⟩
  exact absurd heq (by decide)

end NodeServer

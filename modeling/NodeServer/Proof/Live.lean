import NodeServer.Proof.WellFormed
import NodeServer.Proof.Traces

/-! # Sessions of open connections

A session record is deleted only by a logout of its user, and a logout of the
user of an open connection would need a stale user object, an unsettled promise
or a close event. Replies come in command order, so whoever reads the record on
its own process finds the installed user object and not a stale image. -/

namespace NodeServer

open DBModelKeys

/-! ### Sockets and promises -/

section

variable {w v : World} {e : Event} {p : Pid} {i : Input} {x : Proc}

theorem Handled.open_back (h : Handled w v e p i x) (hw : WF w) (q : Pid) (s : Str)
    (ho : (v.procs q).ws s = some .opened) :
    (w.procs q).ws s = some .opened ∨ (q = p ∧ ∃ now, i = .connect s now) := by
  unfold Proc.ws at ho ⊢
  by_cases hq : q = p
  · subst hq
    obtain ⟨news, outs, heff⟩ := h.effect hw
    have hstep := heff.conns s
    rw [h.conns] at hstep
    obtain ⟨d, hd, hdo⟩ := Option.map_eq_some_iff.mp ho
    rw [hd] at hstep
    cases hc : (w.procs q).conns.get s with
    | none =>
      rw [hc] at hstep
      obtain ⟨now, hi, _⟩ := hstep
      exact Or.inr ⟨rfl, now, hi⟩
    | some c =>
      rw [hc] at hstep
      rcases hstep.1 with (hws | ⟨_, hws⟩) | ⟨_, hws⟩ | ⟨_, hws⟩
      · exact Or.inl (by simp [← hws, hdo])
      · rw [hws] at hdo
        cases hdo
      · rw [hws] at hdo
        cases hdo
      · rw [hws] at hdo
        cases hdo
  · rw [(h.other_conns q hq).1] at ho
    exact Or.inl ho

theorem Handled.settled_mono (h : Handled w v e p i x) (hw : WF w) (s : Str)
    (hown : w.own p s) (hs : (w.procs p).isSettled s = true) : (v.procs p).isSettled s = true := by
  obtain ⟨news, outs, heff⟩ := h.effect hw
  have hstep := heff.conns s
  rw [h.conns] at hstep
  unfold Proc.isSettled at hs ⊢
  cases hc : (w.procs p).conns.get s with
  | none => exact absurd hc hown
  | some c =>
    rw [hc] at hstep hs
    cases hd : (v.procs p).conns.get s with
    | none => rfl
    | some d =>
      rw [hd] at hstep
      exact hstep.2.1 hs

end

theorem sendRespond_settled (x : Proc) (h : Handler)
    (ho : (x.sendRespond h false).ws h.socketId = some .opened) :
    (x.sendRespond h false).isSettled h.socketId = true := by
  unfold Proc.sendRespond at ho ⊢
  cases hsend : x.wsSend h.socketId (.respond h.resData) with
  | none =>
    rw [hsend] at ho
    have hx : x.ws h.socketId = some .opened := ho
    simp [Proc.wsSend, hx] at hsend
  | some y =>
    simp only [Bool.false_eq_true, if_false, Proc.isSettled, Proc.settle, Proc.setConn,
      Table.get_modify, if_true, Option.map_map]
    cases y.conns.get h.socketId with
    | none => rfl
    | some c => rfl

theorem loginRespond_settled (x : Proc) (s : Str) (n : ℕ)
    (ho : (x.loginRespond s n).ws s = some .opened) : (x.loginRespond s n).isSettled s = true := by
  have hs := getBaseRespond_socketId x s n .login
  unfold Proc.loginRespond at ho ⊢
  cases hu : x.getUserWithSocket s with
  | none =>
    have hk := sendRespond_settled x
      ((x.getBaseRespond s n .login).withError 10002 "login fail.".toList)
    rw [hu] at ho
    simp only [Handler.withError, hs] at hk ho ⊢
    exact hk ho
  | some user =>
    have hk := sendRespond_settled (x.setConn s fun c => { c with userId := some user.userId })
      ((x.getBaseRespond s n .login).withData (.login user.socketId user.userId))
    rw [hu] at ho
    simp only [Handler.withData, hs] at hk ho ⊢
    exact hk ho

theorem wsError_shut (p : Pid) (x : Proc) (s : Str) (hk : x.Keyed) :
    (react p (.wsError s) x).ws s ≠ some .opened := by
  have hq := rejectConn_quiet ((x.setWs s .closing).disconnect s) s
    (by rw [disconnect_userList (x.setWs s .closing) s s hk, if_pos rfl])
  have hstep := hq.ctx s
  rw [(disconnect_rest (x.setWs s .closing) s).2.2] at hstep
  simp only [Proc.setWs, Proc.setConn, Table.get_modify, if_true] at hstep
  show Option.map Conn.ws ((((x.setWs s .closing).disconnect s).rejectConn s).conns.get s) ≠ _
  intro ho
  obtain ⟨d, hd, hdo⟩ := Option.map_eq_some_iff.mp ho
  simp only [Proc.setWs, Proc.setConn] at hd
  rw [hd] at hstep
  cases hc : x.conns.get s with
  | none =>
    rw [hc] at hstep
    exact hstep
  | some c =>
    rw [hc] at hstep
    have hle : Conn.Le { c with ws := .closing } d := hstep
    rcases hle.ws with hws | ⟨hws, _⟩
    · rw [hws] at hdo
      cases hdo
    · cases hws

theorem snoc_split {α : Type} {as before rest : List α} {a b : α}
    (h : as ++ [a] = before ++ b :: rest) :
    (before = as ∧ a = b) ∨ ∃ rest', as = before ++ b :: rest' := by
  rcases List.eq_nil_or_concat rest with rfl | ⟨rest', c, rfl⟩
  · obtain ⟨hb, ha⟩ := List.append_inj' h rfl
    exact Or.inl ⟨hb.symm, List.head_eq_of_cons_eq ha⟩
  · have hc : as ++ [a] = (before ++ b :: rest') ++ [c] := by simpa using h
    exact Or.inr ⟨rest', (List.append_inj' hc rfl).1⟩

/-! ### The invariant -/

/-- The users a lookup has collected so far. -/
def Call.found : Call → List User
  | .lookupHash _ _ userList _ => userList
  | _ => []

/-- The `HMSET` of a login on `s` is answered and its callback is still to run. -/
def LoginAnswered (answered : List (Call × Store.Reply)) (s : Str) : Prop :=
  ∃ l r, (Call.loginSet l, r) ∈ answered ∧ l.user.socketId = s

/-- The same for a login of a given user. -/
def LoginAnsweredAs (answered : List (Call × Store.Reply)) (u s : Str) : Prop :=
  ∃ l r, (Call.loginSet l, r) ∈ answered ∧ l.user.socketId = s ∧ l.user.userId = u

theorem LoginAnsweredAs.any {as : List (Call × Store.Reply)} {u s : Str}
    (h : LoginAnsweredAs as u s) : LoginAnswered as s := by
  obtain ⟨l, r, hm, hs, _⟩ := h
  exact ⟨l, r, hm, hs⟩

theorem LoginAnswered.mono {as bs : List (Call × Store.Reply)} {s : Str}
    (hsub : ∀ cr, cr ∈ as → cr ∈ bs) (h : LoginAnswered as s) : LoginAnswered bs s := by
  obtain ⟨l, r, hm, hs⟩ := h
  exact ⟨l, r, hsub _ hm, hs⟩

structure Live (w : World) (p : Pid) (s : Str) : Prop where
  found : ∀ c ∈ (w.procs p).calls, ∀ user ∈ c.found, user.socketId = s →
    user.websocket = true ∧ (w.procs p).userList.get s ≠ none
  -- the reply to HGETALL comes after that to the HMSET it has seen
  ordered : ∀ before key keys userList next res rest,
    (w.procs p).answered = before ++ (.lookupHash key keys userList next, .hash res) :: rest →
    fieldOf res SocketIdKey = s →
    (w.procs p).userList.get s ≠ none ∨ LoginAnswered before s
  recorded : ∀ u, w.db.get (uniquePattern u s) ≠ none →
    (w.procs p).userList.get s ≠ none ∨ LoginAnsweredAs (w.procs p).answered u s
  settled : (w.procs p).userList.get s ≠ none → (w.procs p).isSettled s = true
  kept : ∀ q user, .logoutDel user ∈ (w.procs q).sent → user.socketId ≠ s

/-- Every open connection's session is live. -/
def AllLive (w : World) : Prop := ∀ p s, (w.procs p).ws s = some .opened → Live w p s

theorem own_of_ws {w : World} {p : Pid} {s : Str} {ws : WsState} (h : (w.procs p).ws s = some ws) :
    w.own p s := by
  intro hn
  simp [Proc.ws, hn] at h

theorem WF.login_owner {w : World} (hw : WF w) {p q : Pid} {c : Call} {l : LoginReq} {s : Str}
    (hs : w.own p s) (hc : c ∈ (w.procs q).calls) (hl : c = .loginSet l)
    (hsock : l.user.socketId = s) : q = p := by
  have hok := hw.calls q c hc
  rw [hl] at hok
  have ho : w.own q l.user.socketId := hok.1.1
  rw [hsock] at ho
  exact hw.owner q p s ho hs

theorem Live.executed {w v : World} {e : Event} {q : Pid} {c : Call} {r : Store.Reply} {p : Pid}
    {s : Str} (hw : WF w) (hx : Executed w v e q c r) (hs : w.own p s) (h : Live w p s) :
    Live v p s := by
  have hsub : ∀ cr, cr ∈ (w.procs p).answered → cr ∈ (v.procs p).answered := by
    intro cr hcr
    by_cases hq : p = q
    · subst hq
      rw [hx.answered]
      exact List.mem_append_left _ hcr
    · rwa [hx.others p hq]
  refine ⟨?_, ?_, ?_, ?_, ?_⟩
  · intro c' hc' user hu hus
    rw [hx.calls p] at hc'
    rw [hx.users p]
    exact h.found c' hc' user hu hus
  · intro before key keys userList next res rest hans hres
    rw [hx.users p]
    by_cases hq : p = q
    · subst hq
      rw [hx.answered] at hans
      rcases snoc_split hans with ⟨hb, hlast⟩ | ⟨rest', hold⟩
      · -- the reply is the new one: Redis held the record
        cases hlast
        obtain ⟨user, o, _, _, hrec, hdb⟩ := hx.read hw
        have hsock : user.socketId = s := by rw [← hres, hrec, fieldOf_record_socketId]
        rw [hb]
        have hrec : w.db.get (uniquePattern user.userId s) ≠ none := by
          rw [← hsock]
          exact fun hn => Option.some_ne_none _ (hdb.symm.trans hn)
        rcases h.recorded user.userId hrec with hin | hans
        · exact Or.inl hin
        · exact Or.inr hans.any
      · exact h.ordered before key keys userList next res rest' hold hres
    · rw [hx.others p hq] at hans
      exact h.ordered before key keys userList next res rest hans hres
  · intro u hu
    rw [hx.users p]
    rcases hx.online hw _ (IsOnlineKey.user u s) with hdb | ⟨l, hc, hkey, _⟩ | ⟨user, _, _, hnone⟩
    · rw [hdb] at hu
      rcases h.recorded u hu with hin | hans
      · exact Or.inl hin
      · obtain ⟨l, r', hm, hl⟩ := hans
        exact Or.inr ⟨l, r', hsub _ hm, hl⟩
    · -- the HMSET itself: its reply is now under way to the owner
      have hok := hw.calls q c hx.mem_calls
      rw [hc] at hok
      obtain ⟨huser, hsock⟩ := hw.key_inj hok.1.1 hs hkey
      have hqp := hw.login_owner hs hx.mem_calls hc hsock
      subst hqp
      refine Or.inr ⟨l, r, ?_, hsock, huser⟩
      rw [hx.answered, hc]
      exact List.mem_append_right _ (List.mem_singleton.mpr rfl)
    · exact absurd hnone hu
  · rw [hx.users p]
    intro hu
    have hset := h.settled hu
    unfold Proc.isSettled at hset ⊢
    by_cases hq : p = q
    · subst hq
      rwa [hx.conns]
    · rwa [hx.others p hq]
  · intro t user hm
    exact h.kept t user (hx.sent_back hm)

section

variable {w v : World} {e : Event} {q : Pid} {i : Input} {x : Proc} {p : Pid} {s : Str}

/-- The record of a live session is never read as that of a stale one. -/
theorem Handled.redis_live (h : Handled w v e p i x) (hw : WF w) (hl : Live w p s) {key : Str}
    {keys : List Str} {userList : List User} {next : LookupFor} {res : List (Str × Str)}
    (hi : i = .reply (.lookupHash key keys userList next) (.hash res))
    (hs : (x.getUserWithRedis res).socketId = s) :
    (x.getUserWithRedis res).websocket = true ∧ (w.procs p).userList.get s ≠ none := by
  obtain ⟨_, user, o, _, _, rfl⟩ := h.callOk hw _ _ hi
  rw [getUserWithRedis_record] at hs ⊢
  cases hu : x.userList.get user.socketId with
  | some u =>
    rw [hu] at hs
    obtain ⟨hsock, hloc⟩ := h.local_user hw _ u hu
    have hus : user.socketId = s := hsock.symm.trans hs
    refine ⟨hloc.2, ?_⟩
    rw [← h.userList, ← hus, hu]
    exact Option.some_ne_none u
  | none =>
    rw [hu] at hs
    have hsock : user.socketId = s := hs
    have hans := h.answered
    rw [hi] at hans
    rcases hl.ordered [] key keys userList next user.record x.answered hans
        (by rw [fieldOf_record_socketId, hsock]) with hin | ⟨l, r, hm, _⟩
    · rw [← h.userList, ← hsock, hu] at hin
      exact absurd rfl hin
    · cases hm

theorem Handled.resolved_live (h : Handled w v e p i x) (hw : WF w) (hl : Live w p s)
    {next : LookupFor} {userList : List User} (hr : Resolves i x next userList) (user : User)
    (hu : user ∈ userList) (hs : user.socketId = s) : user.websocket = true := by
  rcases hr with ⟨userId, r, _, _, rfl⟩ | ⟨key, found, res, hi, rfl⟩
  · cases hu
  · rcases List.mem_append.mp hu with hu | hu
    · have hm := h.reply_mem _ _ hi
      exact (hl.found _ (List.mem_append_left _ (List.mem_map_of_mem hm)) user hu hs).1
    · rw [List.mem_singleton.mp hu] at hs ⊢
      exact (h.redis_live hw hl hi hs).1

/-- Nothing logs the user of a live session out while its socket stays open. -/
theorem Handled.not_loggedOut (h : Handled w v e q i x) (hw : WF w) (hl : Live w p s)
    (hopen : (w.procs p).ws s = some .opened) (hstays : (v.procs p).ws s = some .opened)
    (user : User) (hs : user.socketId = s) : ¬ LogsOut q i x user := by
  have hown := own_of_ws hopen
  rintro (⟨t, hd, hu⟩ | ⟨notice, after, userList, hr, hmem, happ, hfail⟩)
  · obtain ⟨hsock, hloc⟩ := h.local_user hw t user hu
    have hts : t = s := hsock.symm.trans hs
    subst hts
    have hqo : w.own q user.socketId := hloc.1.1
    rw [hs] at hqo
    have hqp := hw.owner q p t hqo hown
    subst hqp
    rcases hd with hi | hi | ⟨req, now, hi, _, hset⟩
    · have ha := h.arrives
      rw [hi] at ha
      have hclosing := ha.2
      rw [hopen] at hclosing
      cases hclosing
    · have hshut := wsError_shut q x t (h.keyed hw)
      rw [h.after, hi] at hstays
      exact hshut hstays
    · have hin : (w.procs q).userList.get t ≠ none := by
        rw [← h.userList, hu]
        exact Option.some_ne_none user
      have hset' := hl.settled hin
      simp only [Proc.isSettled, h.conns] at hset hset'
      rw [hset'] at hset
      cases hset
  · have hqo := (h.loggedOut hw user (Or.inr ⟨notice, after, userList, hr, hmem, happ, hfail⟩)).1
    rw [hs] at hqo
    have hqp := hw.owner q p s hqo hown
    subst hqp
    have hsend : x.Sendable user := by
      refine ⟨h.resolved_live hw hl hr user hmem hs, ?_⟩
      rw [hs, Proc.ws, h.conns]
      exact hopen
    exact hfail hsend

theorem Handled.user_stays (h : Handled w v e q i x) (hw : WF w) (hl : Live w p s)
    (hopen : (w.procs p).ws s = some .opened) (hstays : (v.procs p).ws s = some .opened)
    (hu : (w.procs p).userList.get s ≠ none) : (v.procs p).userList.get s ≠ none := by
  by_cases hq : p = q
  · subst hq
    obtain ⟨news, outs, heff⟩ := h.effect hw
    rcases heff.users s with hs | ⟨_, user, hsock, hdel⟩ | ⟨l, r, _, _, hs⟩
    · rwa [hs, h.userList]
    · cases heff.origin _ hdel with
      | logoutDel _ hlog => exact absurd hlog (h.not_loggedOut hw hl hopen hstays user hsock)
    · rw [hs]
      exact Option.some_ne_none _
  · rwa [(h.other_conns p hq).2.1]

theorem Handled.installed (h : Handled w v e p i x) {l : LoginReq} {r : Store.Reply}
    (hi : i = .reply (.loginSet l) r) : (v.procs p).userList.get l.user.socketId = some l.user := by
  have hin := (Emits.loginRespond (x.addUser l.user) l.user.socketId l.id).userList
  rw [h.after, hi]
  show (Proc.loginRespond l.user.socketId l.id (x.addUser l.user)).userList.get _ = _
  rw [hin]
  simp [Proc.addUser, Table.get_set]

theorem Handled.answered_moves (h : Handled w v e p i x) {before rest : List (Call × Store.Reply)}
    (hans : i.replied ++ before = rest) {l : LoginReq} {r : Store.Reply}
    (hm : (.loginSet l, r) ∈ rest) :
    (v.procs p).userList.get l.user.socketId ≠ none ∨ (.loginSet l, r) ∈ before := by
  rw [← hans] at hm
  rcases List.mem_append.mp hm with hm | hm
  · cases i with
    | reply c r' =>
      have heq := List.mem_singleton.mp hm
      rw [Prod.mk.injEq] at heq
      have hin := h.installed (l := l) (r := r) (by rw [heq.1, heq.2])
      exact Or.inl (by rw [hin]; exact Option.some_ne_none _)
    | _ => cases hm
  · exact Or.inr hm

theorem Handled.login_moves (h : Handled w v e p i x) {before rest : List (Call × Store.Reply)}
    (hans : i.replied ++ before = rest) (hl : LoginAnswered rest s) :
    (v.procs p).userList.get s ≠ none ∨ LoginAnswered before s := by
  obtain ⟨l, r, hm, hsock⟩ := hl
  rcases h.answered_moves hans hm with hin | hm
  · rw [hsock] at hin
    exact Or.inl hin
  · exact Or.inr ⟨l, r, hm, hsock⟩

theorem Live.handled (hw : WF w) (h : Handled w v e q i x) (hl : Live w p s)
    (hopen : (w.procs p).ws s = some .opened) (hstays : (v.procs p).ws s = some .opened) :
    Live v p s := by
  have hout := h.not_loggedOut hw hl hopen hstays
  have huser := h.user_stays hw hl hopen hstays
  obtain ⟨news, outs, heff⟩ := h.effect hw
  refine ⟨?_, ?_, ?_, ?_, ?_⟩
  · intro c hc user hu hus
    rcases h.call_cases hw p c hc with hc | ⟨rfl, ho⟩
    · obtain ⟨hsock, hin⟩ := hl.found c hc user hu hus
      exact ⟨hsock, huser hin⟩
    · cases ho with
      | hashFirst userId next key rest replied => cases hu
      | hashNext key₀ next key rest userList res replied =>
        rcases List.mem_append.mp hu with hu | hu
        · have hm := h.reply_mem _ _ replied
          obtain ⟨hsock, hin⟩ :=
            hl.found _ (List.mem_append_left _ (List.mem_map_of_mem hm)) user hu hus
          exact ⟨hsock, huser hin⟩
        · rw [List.mem_singleton.mp hu] at hus ⊢
          obtain ⟨hsock, hin⟩ := h.redis_live hw hl replied hus
          exact ⟨hsock, huser hin⟩
      | _ => cases hu
  · intro before key keys userList next res rest hans hres
    by_cases hq : p = q
    · subst hq
      rw [heff.answered] at hans
      have hold := h.answered
      rw [hans, ← List.append_assoc] at hold
      rcases hl.ordered _ key keys userList next res rest hold hres with hin | hlog
      · exact Or.inl (huser hin)
      · exact h.login_moves rfl hlog
    · rw [(h.other_conns p hq).2.1]
      rw [(h.other_conns p hq).2.2.2] at hans
      exact hl.ordered before key keys userList next res rest hans hres
  · intro u hu
    rw [h.db] at hu
    rcases hl.recorded u hu with hin | hlog
    · exact Or.inl (huser hin)
    · by_cases hq : p = q
      · subst hq
        rw [heff.answered]
        obtain ⟨l, r, hm, hsock, hid⟩ := hlog
        rcases h.answered_moves h.answered.symm hm with hin | hm
        · rw [hsock] at hin
          exact Or.inl hin
        · exact Or.inr ⟨l, r, hm, hsock, hid⟩
      · rw [(h.other_conns p hq).2.2.2]
        exact Or.inr hlog
  · intro hin
    by_cases hq : p = q
    · subst hq
      rcases heff.users s with hs | ⟨hs, _⟩ | ⟨l, r, hi, hsock, _⟩
      · rw [hs, h.userList] at hin
        exact h.settled_mono hw s (own_of_ws hopen) (hl.settled hin)
      · exact absurd hs hin
      · rw [h.after, hi] at hstays ⊢
        rw [← hsock] at hstays ⊢
        exact loginRespond_settled (x.addUser l.user) l.user.socketId l.id hstays
    · rw [(h.other_conns p hq).2.1] at hin
      have hset := hl.settled hin
      unfold Proc.isSettled at hset ⊢
      rwa [(h.other_conns p hq).1]
  · intro t user hm hus
    rcases h.sent_cases hw t _ hm with hm | ⟨rfl, ho⟩
    · exact hl.kept t user hm hus
    · cases ho with
      | logoutDel _ hlog => exact hout user hus hlog

/-! ### New connections -/

theorem Handled.connected (h : Handled w v e p i x) {now : ℕ} (hi : i = .connect s now) (t : Pid) :
    (v.procs t).sent = (w.procs t).sent ∧ (v.procs t).answered = (w.procs t).answered ∧
      (v.procs t).userList = (w.procs t).userList := by
  by_cases ht : t = p
  · subst ht
    have hans := h.answered
    rw [hi] at hans
    rw [h.after, hi]
    exact ⟨h.sent, hans.symm, h.userList⟩
  · exact ⟨(h.other_conns t ht).2.2.1, (h.other_conns t ht).2.2.2, (h.other_conns t ht).2.1⟩

theorem Live.connected (hw : WF w) (h : Handled w v e p i x) {now : ℕ} (hi : i = .connect s now) :
    Live v p s := by
  obtain ⟨hnew, hid⟩ := h.fresh s now hi
  have unseen : ∀ t (user : User), w.own t user.socketId → user.socketId ≠ s := by
    intro t user ho hs
    rw [hs] at ho
    exact hnew (hw.ids t s ho)
  have hcalls : ∀ t, (v.procs t).calls = (w.procs t).calls := by
    intro t
    simp only [Proc.calls, (h.connected hi t).1, (h.connected hi t).2.1]
  have huser : (v.procs p).userList.get s = none := by
    rw [(h.connected hi p).2.2]
    cases hu : (w.procs p).userList.get s with
    | none => rfl
    | some user =>
      obtain ⟨hsock, hloc⟩ := hw.users p s user hu
      exact absurd hsock (unseen p user hloc.1.1)
  refine ⟨?_, ?_, ?_, fun hin => absurd huser hin, ?_⟩
  · intro c hc user hu hus
    rw [hcalls p] at hc
    have hok := hw.calls p c hc
    cases c with
    | lookupHash key rest userList next =>
      obtain ⟨t, ht, _⟩ := hok.2.1 user hu
      exact absurd hus (unseen t user ht.1)
    | _ => cases hu
  · intro before key keys userList next res rest hans hres
    rw [(h.connected hi p).2.1] at hans
    have hm : (.lookupHash key keys userList next, .hash res) ∈ (w.procs p).answered := by
      rw [hans]
      exact List.mem_append_right _ (List.mem_cons_self ..)
    obtain ⟨user, t, ht, _, rfl⟩ := hw.replies p _ _ hm
    rw [fieldOf_record_socketId] at hres
    exact absurd hres (unseen t user ht.1)
  · intro u hu
    rw [h.db] at hu
    obtain ⟨value, hv⟩ := Option.ne_none_iff_exists'.mp hu
    obtain ⟨user, t, ht, hk, _⟩ := entry_online w.own w.db hw.db (IsOnlineKey.user u s) hv
    have hinj := uniquePattern_inj u user.userId s user.socketId hid
      (hw.shape _ (hw.ids t _ ht.1)) hk
    exact absurd hinj.2.symm (unseen t user ht.1)
  · intro t user hm hus
    rw [(h.connected hi t).1] at hm
    have hok : UserOf w.own t user := hw.calls t _ (List.mem_append_right _ hm)
    exact unseen t user hok.1 hus

end

/-! ### Every run -/

theorem AllLive.step {w v : World} {e : Event} (hw : WF w) (hl : AllLive w)
    (h : step w e = some v) : AllLive v := by
  intro p s hopen
  rcases step_cases w v e h with ⟨q, c, r, hx⟩ | ⟨q, i, x, hx⟩
  · rw [hx.ws] at hopen
    exact (hl p s hopen).executed hw hx (own_of_ws hopen)
  · rcases hx.open_back hw p s hopen with hold | ⟨rfl, now, hi⟩
    · exact (hl p s hold).handled hw hx hold hopen
    · exact Live.connected hw hx hi

theorem allLive_reach {ok : World → Event → Prop} {w : World}
    (h : Run.Reach step ok World.initial w) : WF w ∧ AllLive w := by
  refine Run.Reach.invariant (fun w => WF w ∧ AllLive w) ⟨WF.initial, ?_⟩ ?_ h
  · intro p s ho
    cases ho
  · intro v e v' hv _ hs
    exact ⟨hv.1.step hs, hv.2.step hv.1 hs⟩

/-- Some record of the user id on the socket id is in Redis. -/
def Recorded (w : World) (u s : Str) : Prop :=
  ∃ user : User, user.userId = u ∧ user.socketId = s ∧
    w.db.get (uniquePattern u s) = some (.hash user.record)

theorem Recorded.step {w v : World} {e : Event} {p : Pid} {u s : Str} (hw : WF w) (hl : AllLive w)
    (h : NodeServer.step w e = some v) (hown : w.own p s) (hopen : (v.procs p).ws s = some .opened)
    (hr : Recorded w u s) : Recorded v u s := by
  obtain ⟨user, hu, hs, hget⟩ := hr
  rcases step_cases w v e h with ⟨q, c, r, hx⟩ | ⟨q, i, x, hx⟩
  · rcases hx.online hw _ (IsOnlineKey.user u s) with hdb | ⟨l, hc, hkey, hnew⟩ | ⟨gone, hc, hkey, _⟩
    · exact ⟨user, hu, hs, by rw [hdb, hget]⟩
    · have hok := hw.calls q c hx.mem_calls
      rw [hc] at hok
      obtain ⟨hlu, hls⟩ := hw.key_inj hok.1.1 hown hkey
      exact ⟨l.user, hlu, hls, hnew⟩
    · -- no logout of this socket id is under way
      have hok := hw.calls q c hx.mem_calls
      rw [hc] at hok
      rw [hx.ws] at hopen
      refine absurd (hw.key_inj hok.1 hown hkey).2 ((hl p s hopen).kept q gone ?_)
      rw [hx.sent, hc]
      exact List.mem_cons_self ..
  · exact ⟨user, hu, hs, by rw [hx.db, hget]⟩

/-- A session whose `HMSET` Redis has executed keeps its record for as long as
its socket is open. -/
theorem live_session_kept (w₁ w₂ w₃ : World) (p : Pid) (l : LoginReq) (order : List Str)
    (hreach : Reachable w₁) (hnext : (w₁.procs p).sent.head? = some (.loginSet l))
    (hexec : step w₁ (.exec p (.done order)) = some w₂)
    (hrest : Run.Reach step (fun _ _ => True) w₂ w₃)
    (hopen : (w₃.procs p).ws l.user.socketId = some .opened) :
    Recorded w₃ l.user.userId l.user.socketId := by
  obtain ⟨hw, hl⟩ := allLive_reach hreach
  have hcall : Call.loginSet l ∈ (w₁.procs p).calls :=
    List.mem_append_right _ (List.mem_of_mem_head? hnext)
  have hown : w₁.own p l.user.socketId := (hw.calls p _ hcall).1.1
  obtain ⟨c, r, hx⟩ := exec_cases w₁ w₂ p _ hexec
  have hc : c = .loginSet l := by
    rw [hx.sent] at hnext
    exact Option.some.inj hnext
  subst hc
  have hstart : Recorded w₂ l.user.userId l.user.socketId := by
    rcases hx.db with ⟨order', _, hdb, _⟩ | ⟨message, he, _, _⟩
    · refine ⟨l.user, rfl, rfl, ?_⟩
      rw [hdb]
      exact hmset_record w₁.own w₁.db hw.db l.user
    · cases he
  -- sockets never reopen, so the socket has been open all along
  have hinv := Run.Reach.invariant
    (fun w => WF w ∧ AllLive w ∧ w.own p l.user.socketId ∧
      ((w.procs p).ws l.user.socketId = some .opened → Recorded w l.user.userId l.user.socketId))
    ⟨hw.executed hx, hl.step hw hexec, (hx.own p _).mpr hown, fun _ => hstart⟩ ?_ hrest
  · exact hinv.2.2.2 hopen
  · intro v e v' ⟨hv, hlv, hov, hrv⟩ _ hs
    rcases step_cases v v' e hs with ⟨q, c, r, hy⟩ | ⟨q, i, x, hy⟩
    · refine ⟨hv.step hs, hlv.step hv hs, (hy.own p _).mpr hov, ?_⟩
      intro ho
      have hback : (v.procs p).ws l.user.socketId = some .opened := by rwa [← hy.ws]
      exact Recorded.step hv hlv hs hov ho (hrv hback)
    · refine ⟨hv.step hs, hlv.step hv hs, hy.own_mono hv p _ hov, ?_⟩
      intro ho
      rcases hy.open_back hv p _ ho with hback | ⟨_, now, hi⟩
      · exact Recorded.step hv hlv hs hov ho (hrv hback)
      · exact absurd (hv.ids p _ hov) (hy.fresh _ now hi).1

/-! ### A session that survives a message with an unknown route -/

def loginTrace : List Event :=
  [.connect 0 ['A'] 1, .message 0 (socketIdOf ['A']) (loginRequest ['u']) 2,
    .exec 0 (.done []), .reply 0, .exec 0 (.done []), .reply 0]

def unknownRouteTrace : List Event :=
  [.reply 0, .message 0 (socketIdOf ['A']) ⟨2, ['x'], none, .undefined, none, .undefined⟩ 3]

theorem session_survives_unknown_route :
    Recorded (Run.ends step World.initial ((loginTrace ++ [.exec 0 (.done [])]) ++ unknownRouteTrace))
      ['u'] (socketIdOf ['A']) :=
  have hlogin : (Run.runs step World.initial loginTrace).isSome = true := by decide +kernel
  have hset : (Run.runs step World.initial (loginTrace ++ [.exec 0 (.done [])])).isSome = true := by
    decide +kernel
  have hall : (Run.runs step World.initial
      ((loginTrace ++ [.exec 0 (.done [])]) ++ unknownRouteTrace)).isSome = true := by
    decide +kernel
  live_session_kept _ _ _ 0
    ⟨createUserWithLogin 0 0 ['u'] (socketIdOf ['A']) (natText 1) (natText 2), 1⟩ []
    (Run.reach_ends loginTrace hlogin) rfl (Run.step_ends hset) (Run.reach_ends_append hall)
    (by decide +kernel)

end NodeServer

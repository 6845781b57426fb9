import NodeServer.Proof.Agreement

/-! # Shutting a process down

The signal handler sends a `DEL` for every entry of `userList` and exits. From
then on the process handles nothing, and Redis works off what it has sent. -/

namespace NodeServer

open DBModelKeys

/-! ### The handler -/

def Proc.localUsers (x : Proc) : List User := x.userList.keys.filterMap x.userList.get

theorem mem_localUsers (x : Proc) (user : User) :
    user ∈ x.localUsers ↔ ∃ s, x.userList.get s = some user := by
  constructor
  · intro h
    obtain ⟨s, _, hs⟩ := List.mem_filterMap.mp h
    exact ⟨s, hs⟩
  · rintro ⟨s, hs⟩
    exact List.mem_filterMap.mpr ⟨s, (Table.mem_keys_iff _ s).mpr ⟨user, hs⟩, hs⟩

theorem logoutAllLocalUsers_eq (x : Proc) : x.logoutAllLocalUsers =
    { x with sent := x.sent ++ x.localUsers.map .logoutDel } := by
  -- one round of the loop issues the deletion of the entry under the id, if there is one
  have hloop : ∀ f : Proc → Str → Proc,
      (∀ y s, f y s = { y with sent := y.sent ++ ((x.userList.get s).map .logoutDel).toList }) →
      ∀ (ids : List Str) (y : Proc), ids.foldl f y =
        { y with sent := y.sent ++ (ids.filterMap x.userList.get).map .logoutDel } := by
    intro f hf ids
    induction ids with
    | nil =>
      intro y
      simp
    | cons s ids ih =>
      intro y
      rw [List.foldl_cons, ih, hf]
      cases hs : x.userList.get s with
      | none => simp [hs]
      | some user => simp [hs]
  refine hloop _ ?_ _ x
  intro y s
  simp only [Proc.getUserWithSocket]
  cases x.userList.get s with
  | none => simp
  | some user => rfl

theorem shutdown_proc (w : World) (p : Pid) : (w.shutdown p).procs p =
    { w.procs p with sent := (w.procs p).sent ++ (w.procs p).localUsers.map .logoutDel } := by
  rw [World.shutdown, setProc_self, logoutAllLocalUsers_eq]

theorem shutdown_other (w : World) (p q : Pid) (hq : q ≠ p) :
    (w.shutdown p).procs q = w.procs q := setProc_ne w p q _ hq

theorem shutdown_conns (w : World) (p q : Pid) :
    ((w.shutdown p).procs q).conns = (w.procs q).conns := by
  by_cases hq : q = p
  · rw [hq, shutdown_proc]
  · rw [shutdown_other w p q hq]

theorem WF.shutdown {w : World} (hw : WF w) (p : Pid) : WF (w.shutdown p) := by
  have hown : (w.shutdown p).own = w.own := by
    funext q s
    simp only [World.own, shutdown_conns]
  have huser : ∀ q, ((w.shutdown p).procs q).userList = (w.procs q).userList := by
    intro q
    by_cases hq : q = p
    · rw [hq, shutdown_proc]
    · rw [shutdown_other w p q hq]
  have hans : ∀ q, ((w.shutdown p).procs q).answered = (w.procs q).answered := by
    intro q
    by_cases hq : q = p
    · rw [hq, shutdown_proc]
    · rw [shutdown_other w p q hq]
  refine ⟨?_, hw.shape, ?_, ?_, ?_, ?_, ?_⟩
  · rw [hown]
    exact hw.ids
  · rw [hown]
    exact hw.owner
  · intro q s user hu
    rw [huser] at hu
    rw [hown]
    exact hw.users q s user hu
  · intro q c hc
    rw [hown]
    by_cases hq : q = p
    · subst hq
      rw [Proc.calls, shutdown_proc, ← List.append_assoc] at hc
      rcases List.mem_append.mp hc with hc | hc
      · exact hw.calls q c hc
      · obtain ⟨user, hu, rfl⟩ := List.mem_map.mp hc
        obtain ⟨s, hs⟩ := (mem_localUsers _ user).mp hu
        exact (hw.users q s user hs).2.1
    · rw [shutdown_other w p q hq] at hc
      exact hw.calls q c hc
  · intro q c r hm
    rw [hans] at hm
    rw [hown]
    exact hw.replies q c r hm
  · rw [hown]
    exact hw.db

/-! ### After the exit -/

/- Process `p` handles nothing any more, and Redis executes what it has sent. -/
structure Exited (p : Pid) (w : World) (e : Event) : Prop where
  silent : ∀ i, inputOf w e ≠ some (p, i)
  executes : ∀ message, e ≠ .exec p (.failed message)

/- A run from the exit on, until nothing that `p` has sent is left. -/
structure ShutDown (w : World) (p : Pid) (tr : List (World × Event)) (v : World) : Prop where
  path : Run.Path step (w.shutdown p) tr v
  exited : ∀ s ∈ tr, Exited p s.1 s.2
  drained : (v.procs p).sent = []

/- What a step of another process makes of a database. -/
def othersWrite (p : Pid) (db : Store.Db) (s : World × Event) : Store.Db :=
  match s.2 with
  | .exec q (.done _) =>
    if q = p then db else
      match (s.1.procs q).sent with
      | c :: _ => (c.txn.run db).1
      | [] => db
  | _ => db

def leftByOthers (p : Pid) (tr : List (World × Event)) (db : Store.Db) : Store.Db :=
  tr.foldl (othersWrite p) db

/- What a step makes of a database when the logouts of the handler, the last `n` commands that
`p` has sent, are left out. -/
def writeUnlessLogout (p : Pid) (n : ℕ) (db : Store.Db) (s : World × Event) : Store.Db :=
  match s.2 with
  | .exec q (.done _) =>
    match (s.1.procs q).sent with
    | c :: rest => if q = p ∧ rest.length < n then db else (c.txn.run db).1
    | [] => db
  | _ => db

/- What all commands but the logouts make of the database at the signal. -/
def leftWithoutLogouts (w : World) (p : Pid) (tr : List (World × Event)) : Store.Db :=
  tr.foldl (writeUnlessLogout p (w.procs p).localUsers.length) w.db

/- The keys under which process `p` can keep a session. -/
def World.sessionKey (w : World) (p : Pid) (k : Str) : Prop :=
  ∃ u s, w.own p s ∧ k = uniquePattern u s

/- No record of `p` is left. Every other key is as if the logouts had not been sent, and as the
other processes left it if no command of `p` still in flight at the signal writes it. -/
structure SessionsRemoved (w : World) (p : Pid) (tr : List (World × Event)) (v : World) : Prop where
  gone : ∀ k fields, v.db.get k = some (.hash fields) → ¬ Carries p fields
  flight : ∀ k, ¬ w.sessionKey p k → v.db.get k = (leftWithoutLogouts w p tr).get k
  rest : ∀ k, ¬ w.sessionKey p k → (∀ c ∈ (w.procs p).sent, k ∉ c.txn.writes) →
    v.db.get k = (leftByOthers p tr w.db).get k

/- Whether there is a record under the key after the call, given whether there was
one before. -/
def Call.leaves (k : Str) (present : Bool) : Call → Bool
  | .loginSet l => l.user.key = k || present
  | .logoutDel user => user.key ≠ k && present
  | _ => present

def Proc.leaves (x : Proc) (db : Store.Db) (k : Str) : Bool :=
  x.sent.foldl (Call.leaves k) (db.get k).isSome

/- Every record of `p` that is in Redis, or will be once it has executed what `p` has
sent, is that of an entry. -/
def AllListed (w : World) (p : Pid) : Prop :=
  ∀ u s, w.own p s → (w.procs p).leaves w.db (uniquePattern u s) = true →
    ∃ user, (w.procs p).userList.get s = some user ∧ user.userId = u

/-! ### One step -/

theorem run_leaves (own : Pid → Str → Prop) (db : Store.Db)
    (hdb : ∀ k value, db.get k = some value → EntryOk own k value) (c : Call) (k : Str)
    (hk : IsOnlineKey k) : ((c.txn.run db).1.get k).isSome = c.leaves k (db.get k).isSome := by
  cases c with
  | loginSet l =>
    by_cases hkey : l.user.key = k
    · subst hkey
      have hset : ((Call.loginSet l).txn.run db).1.get l.user.key = some (.hash l.user.record) :=
        hmset_record own db hdb l.user
      simp [hset, Call.leaves]
    · have hsame : ((Call.loginSet l).txn.run db).1.get k = db.get k :=
        Store.txn_frame _ db k (by simpa [Call.txn, Store.Txn.writes, Store.Cmd.writes] using Ne.symm hkey)
      simp [hsame, Call.leaves, hkey]
  | logoutDel user =>
    by_cases hkey : user.key = k
    · subst hkey
      have hdel : ((Call.logoutDel user).txn.run db).1.get user.key = none := by
        show (Store.del user.key db).1.get user.key = none
        simp only [Store.del]
        split
        · assumption
        · simp only [Table.get_del, if_true]
      simp [hdel, Call.leaves]
    · have hsame : ((Call.logoutDel user).txn.run db).1.get k = db.get k :=
        Store.txn_frame _ db k (by simpa [Call.txn, Store.Txn.writes, Store.Cmd.writes] using Ne.symm hkey)
      simp [hsame, Call.leaves, hkey]
  | _ =>
    rcases run_online own db hdb _ k hk with hsame | ⟨_, hc, _⟩ | ⟨_, hc, _⟩
    · rw [hsame]
      rfl
    · cases hc
    · cases hc

section

variable {w v : World} {e : Event} {p q : Pid} {c : Call} {r : Store.Reply}

/-- No other process writes a record of `p`. -/
theorem Executed.session_other (h : Executed w v e q c r) (hw : WF w) (hq : q ≠ p) {u s : Str}
    (hs : w.own p s) : v.db.get (uniquePattern u s) = w.db.get (uniquePattern u s) := by
  have hcall := hw.calls q c h.mem_calls
  rcases h.online hw _ (IsOnlineKey.user u s) with hsame | ⟨l, rfl, hkey, _⟩ | ⟨user, rfl, hkey, _⟩
  · exact hsame
  · have hown : w.own q l.user.socketId := hcall.1.1
    have hid := (hw.key_inj hown hs hkey).2
    rw [hid] at hown
    exact absurd (hw.owner q p s hown hs) hq
  · have hown : w.own q user.socketId := hcall.1
    have hid := (hw.key_inj hown hs hkey).2
    rw [hid] at hown
    exact absurd (hw.owner q p s hown hs) hq

theorem Executed.leaves (h : Executed w v e q c r) (hw : WF w) (hok : Exited p w e) {u s : Str}
    (hs : w.own p s) : (v.procs p).leaves v.db (uniquePattern u s) =
      (w.procs p).leaves w.db (uniquePattern u s) := by
  by_cases hq : q = p
  · subst hq
    rcases h.db with ⟨order, _, hdb, _⟩ | ⟨message, he, _⟩
    · rw [Proc.leaves, Proc.leaves, h.sent, List.foldl_cons, hdb,
        run_leaves w.own w.db hw.db c _ (IsOnlineKey.user u s)]
    · exact absurd he (hok.executes message)
  · rw [Proc.leaves, Proc.leaves, h.others p (Ne.symm hq), h.session_other hw hq hs]

end

/-! ### Runs -/

/- Along the run: the queue of `p` shrinks from the front, what it will leave under
the keys of `p` is settled, and the rest is the work of the others and of what `p` had in
flight. -/
structure Draining (w : World) (p : Pid) (tr : List (World × Event)) (v : World) : Prop where
  wf : WF v
  own : ∀ s, v.own p s ↔ w.own p s
  queue : (v.procs p).sent <:+ ((w.shutdown p).procs p).sent
  leaves : ∀ u s, w.own p s → (v.procs p).leaves v.db (uniquePattern u s) =
    ((w.shutdown p).procs p).leaves w.db (uniquePattern u s)
  flight : ∀ k, ¬ w.sessionKey p k → v.db.get k = (leftWithoutLogouts w p tr).get k
  rest : ∀ k, ¬ w.sessionKey p k → (∀ c ∈ (w.procs p).sent, k ∉ c.txn.writes) →
    v.db.get k = (leftByOthers p tr w.db).get k

section

variable {w v v' : World} {p q : Pid} {e : Event} {tr : List (World × Event)}

theorem leftByOthers_snoc (p : Pid) (tr : List (World × Event)) (s : World × Event)
    (db : Store.Db) : leftByOthers p (tr ++ [s]) db = othersWrite p (leftByOthers p tr db) s := by
  simp only [leftByOthers, List.foldl_append, List.foldl_cons, List.foldl_nil]

theorem leftWithoutLogouts_snoc (w : World) (p : Pid) (tr : List (World × Event)) (s : World × Event) :
    leftWithoutLogouts w p (tr ++ [s]) =
      writeUnlessLogout p (w.procs p).localUsers.length (leftWithoutLogouts w p tr) s := by
  simp only [leftWithoutLogouts, List.foldl_append, List.foldl_cons, List.foldl_nil]

theorem logout_writes {c : Call} (hw : WF w) (hc : c ∈ (w.procs p).localUsers.map Call.logoutDel) {k : Str}
    (hk : ¬ w.sessionKey p k) : k ∉ c.txn.writes := by
  obtain ⟨user, hu, rfl⟩ := List.mem_map.mp hc
  obtain ⟨s, hs⟩ := (mem_localUsers _ user).mp hu
  intro hwrites
  apply hk
  exact ⟨user.userId, user.socketId, (hw.users p s user hs).2.1.1, List.mem_singleton.mp hwrites⟩

/-- The commands of `p` write its own sessions and what it had in flight. -/
theorem Draining.own_command {c : Call} (hd : Draining w p tr v) (hw : WF w)
    (hc : c ∈ (v.procs p).sent) {k : Str} (hk : ¬ w.sessionKey p k)
    (hflight : ∀ c ∈ (w.procs p).sent, k ∉ c.txn.writes) : k ∉ c.txn.writes := by
  have hmem := hd.queue.subset hc
  rw [shutdown_proc] at hmem
  rcases List.mem_append.mp hmem with hmem | hmem
  · exact hflight c hmem
  · exact logout_writes hw hmem hk

/-- The last commands of `p` are the logouts. -/
theorem Draining.logout {c : Call} {rest : List Call} (hd : Draining w p tr v)
    (hsent : (v.procs p).sent = c :: rest) (hlast : rest.length < (w.procs p).localUsers.length) :
    c ∈ (w.procs p).localUsers.map Call.logoutDel := by
  have hqueue := hd.queue
  rw [hsent, shutdown_proc] at hqueue
  have hlogouts := List.suffix_of_suffix_length_le hqueue (List.suffix_append _ _)
    (by rw [List.length_cons, List.length_map]; exact hlast)
  exact hlogouts.subset List.mem_cons_self

theorem Executed.queue_suffix {c : Call} {r : Store.Reply} (h : Executed v v' e q c r) (p : Pid) :
    (v'.procs p).sent <:+ (v.procs p).sent := by
  by_cases hq : p = q
  · subst hq
    rw [h.sent]
    exact List.suffix_cons c _
  · have hsame : (v'.procs p).sent = (v.procs p).sent := congrArg Proc.sent (h.others p hq)
    exact ⟨[], hsame⟩

/-- A command in flight at the signal, or of another process, is executed on both databases. -/
theorem Draining.flight_executed {c : Call} {r : Store.Reply} (hd : Draining w p tr v) (hw : WF w)
    (h : Executed v v' e q c r) {k : Str} (hk : ¬ w.sessionKey p k) :
    v'.db.get k = (leftWithoutLogouts w p (tr ++ [(v, e)])).get k := by
  rw [leftWithoutLogouts_snoc]
  rcases h.db with ⟨order, rfl, hdb, _⟩ | ⟨message, rfl, hdb, _⟩
  · simp only [writeUnlessLogout, h.sent, hdb]
    split
    · next hlast =>
      obtain ⟨rfl, hlast⟩ := hlast
      rw [Store.txn_frame c.txn v.db k (logout_writes hw (hd.logout h.sent hlast) hk)]
      exact hd.flight k hk
    · exact Store.txn_local c.txn _ _ k (hd.flight k hk)
  · rw [hdb]
    exact hd.flight k hk

theorem Draining.executed {c : Call} {r : Store.Reply} (hd : Draining w p tr v) (hw : WF w)
    (hok : Exited p v e) (h : Executed v v' e q c r) : Draining w p (tr ++ [(v, e)]) v' := by
  refine ⟨hd.wf.executed h, fun s => (h.own p s).trans (hd.own s), ?_, ?_,
    fun k hk => hd.flight_executed hw h hk, ?_⟩
  · exact (h.queue_suffix p).trans hd.queue
  · intro u s hs
    rw [h.leaves hd.wf hok ((hd.own s).mpr hs)]
    exact hd.leaves u s hs
  · intro k hk hflight
    rw [leftByOthers_snoc]
    rcases h.db with ⟨order, rfl, hdb, _⟩ | ⟨message, rfl, hdb, _⟩
    · by_cases hq : q = p
      · subst hq
        rw [hdb, Store.txn_frame c.txn v.db k (hd.own_command hw h.mem_sent hk hflight)]
        simp only [othersWrite, if_true]
        exact hd.rest k hk hflight
      · rw [hdb]
        simp only [othersWrite, hq, if_false, h.sent]
        exact Store.txn_local c.txn _ _ k (hd.rest k hk hflight)
    · rw [hdb]
      exact hd.rest k hk hflight

theorem Draining.handled {i : Input} {x : Proc} (hd : Draining w p tr v) (hok : Exited p v e)
    (h : Handled v v' e q i x) : Draining w p (tr ++ [(v, e)]) v' := by
  have hq : p ≠ q := by
    intro hpq
    exact hok.silent i (hpq ▸ h.input)
  obtain ⟨hconns, _, hsent, _⟩ := h.other_conns p hq
  have hinput := h.input
  refine ⟨hd.wf.handled h, ?_, ?_, ?_, ?_, ?_⟩
  · intro s
    rw [World.own, hconns]
    exact hd.own s
  · rw [hsent]
    exact hd.queue
  · intro u s hs
    rw [Proc.leaves, hsent, h.db]
    exact hd.leaves u s hs
  · intro k hk
    have hsame : writeUnlessLogout p (w.procs p).localUsers.length (leftWithoutLogouts w p tr) (v, e) =
        leftWithoutLogouts w p tr := by
      cases e with
      | exec _ _ => cases hinput
      | _ => rfl
    rw [leftWithoutLogouts_snoc, hsame, h.db]
    exact hd.flight k hk
  · intro k hk hflight
    have hsame : othersWrite p (leftByOthers p tr w.db) (v, e) = leftByOthers p tr w.db := by
      cases e with
      | exec _ _ => cases hinput
      | _ => rfl
    rw [leftByOthers_snoc, hsame, h.db]
    exact hd.rest k hk hflight

theorem ShutDown.draining (hs : ShutDown w p tr v) (hw : WF w) : Draining w p tr v := by
  have hstart : Draining w p [] (w.shutdown p) := by
    refine ⟨hw.shutdown p, ?_, List.suffix_refl _, fun _ _ _ => rfl, fun _ _ => rfl, fun _ _ _ => rfl⟩
    intro s
    rw [World.own, shutdown_conns]
    rfl
  have hinv := Run.Path.invariant (fun tr v => (∀ s ∈ tr, Exited p s.1 s.2) → Draining w p tr v)
    (fun _ => hstart) ?_ hs.path
  · exact hinv hs.exited
  · intro tr v e v' hd hstep hall
    have hd := hd fun s hs => hall s (List.mem_append_left _ hs)
    have hok := hall (v, e) (List.mem_append_right _ (List.mem_singleton_self _))
    rcases step_cases v v' e hstep with ⟨q, c, r, hx⟩ | ⟨q, i, x, hx⟩
    · exact hd.executed hw hok hx
    · exact hd.handled hok hx

end

/-! ### What is left in the end -/

theorem logouts_leave (users : List User) (k : Str) (present : Bool) :
    (users.map Call.logoutDel).foldl (Call.leaves k) present =
      (present && users.all fun user => user.key ≠ k) := by
  induction users generalizing present with
  | nil => simp
  | cons user users ih =>
    rw [List.map_cons, List.foldl_cons, ih, List.all_cons, Call.leaves]
    cases present with
    | _ => simp

section

variable {w v : World} {p : Pid} {tr : List (World × Event)}

/-- A record of `p` is left when the queue leaves it and no entry is its. -/
theorem ShutDown.session (h : ShutDown w p tr v) (hw : WF w) {u s : Str} (hs : w.own p s) :
    v.db.get (uniquePattern u s) ≠ none ↔
      (w.procs p).leaves w.db (uniquePattern u s) = true ∧
        ∀ user, (w.procs p).userList.get s = some user → user.userId ≠ u := by
  have hleft := (h.draining hw).leaves u s hs
  have hentry : ((w.procs p).localUsers.all fun user => user.key ≠ uniquePattern u s) = true ↔
      ∀ user, (w.procs p).userList.get s = some user → user.userId ≠ u := by
    simp only [List.all_eq_true, decide_eq_true_eq, mem_localUsers]
    constructor
    · intro hall user hu hid
      apply hall user ⟨s, hu⟩
      rw [User.key, hid, (hw.users p s user hu).1]
    · rintro hall user ⟨t, ht⟩ hkey
      obtain ⟨htid, hlocal⟩ := hw.users p t user ht
      obtain ⟨hid, hsid⟩ := hw.key_inj hlocal.1.1 hs hkey
      rw [← htid, hsid] at ht
      exact hall user ht hid
  rw [Proc.leaves, h.drained, shutdown_proc, Proc.leaves, List.foldl_append, logouts_leave] at hleft
  rw [← hentry, ← Bool.and_eq_true, Proc.leaves, ← hleft, List.foldl_nil]
  cases v.db.get (uniquePattern u s) with
  | none => simp
  | some value => simp

/-- Redis can work off the queue of a process, whatever is in it. -/
theorem drains {w₀ : World} (calls : List Call) (hpath : Run.Path step w₀ tr w)
    (hok : ∀ s ∈ tr, Exited p s.1 s.2) (hsent : (w.procs p).sent = calls) :
    ∃ tr' v, Run.Path step w₀ tr' v ∧ (∀ s ∈ tr', Exited p s.1 s.2) ∧ (v.procs p).sent = [] := by
  induction calls generalizing w tr with
  | nil => exact ⟨tr, w, hpath, hok, hsent⟩
  | cons c rest ih =>
    obtain ⟨order, v, hv⟩ := exec_enabled hsent
    obtain ⟨c', r', hx⟩ := exec_cases w v p _ hv
    refine ih (hpath.snoc _ hv) ?_ (List.cons.inj (hsent.symm.trans hx.sent)).2.symm
    intro s hs
    rcases List.mem_append.mp hs with hs | hs
    · exact hok s hs
    · rw [List.mem_singleton.mp hs]
      refine ⟨?_, ?_⟩
      · intro i hi
        cases hi
      · intro message he
        cases he

theorem shutDown_exists (w : World) (p : Pid) : ∃ tr v, ShutDown w p tr v := by
  have hstart : Run.Path step (w.shutdown p) [] (w.shutdown p) := .nil
  have hok : ∀ s ∈ ([] : List (World × Event)), Exited p s.1 s.2 := by
    intro s hs
    cases hs
  obtain ⟨tr, v, hpath, hok, hsent⟩ := drains _ hstart hok rfl
  exact ⟨tr, v, hpath, hok, hsent⟩

end

/-- Shutting a process down removes its sessions and nothing else, exactly when each
of its records is that of an entry. -/
theorem shutdown_clean_iff (w : World) (p : Pid) (hreach : Reachable w) :
    (∀ tr v, ShutDown w p tr v → SessionsRemoved w p tr v) ↔ AllListed w p := by
  have hw : WF w := WF.initial.reach hreach
  constructor
  · intro hclean u s hs hleaves
    by_contra hnone
    obtain ⟨tr, v, hrun⟩ := shutDown_exists w p
    have hd := hrun.draining hw
    have hrecord : v.db.get (uniquePattern u s) ≠ none :=
      (hrun.session hw hs).mpr ⟨hleaves, fun user hu hid => hnone ⟨user, hu, hid⟩⟩
    obtain ⟨value, hvalue⟩ := Option.ne_none_iff_exists'.mp hrecord
    obtain ⟨user, q, hq, hkey, rfl⟩ :=
      entry_online v.own v.db hd.wf.db (IsOnlineKey.user u s) hvalue
    have hvs : v.own p s := (hd.own s).mpr hs
    have hsid := (hd.wf.key_inj hq.1 hvs hkey.symm).2
    have hqp : q = p := hd.wf.owner q p s (hsid ▸ hq.1) hvs
    subst hqp
    exact (hclean tr v hrun).gone _ _ hvalue ((carries_record q user).mpr hq.2)
  · intro hlisted tr v hrun
    have hd := hrun.draining hw
    refine ⟨?_, hd.flight, hd.rest⟩
    intro k fields hk hcarries
    rcases hd.wf.db k _ hk with ⟨user, q, hq, rfl, hv⟩ | ⟨n, _, hv⟩ | ⟨_, _, _, hv⟩ | ⟨_, _, hv⟩
    · cases hv
      have hqp : q = p := appInfo_injective (hq.2.symm.trans ((carries_record p user).mp hcarries))
      subst hqp
      have hs : w.own q user.socketId := (hd.own _).mp hq.1
      have hrecord : v.db.get (uniquePattern user.userId user.socketId) ≠ none := by
        rw [show uniquePattern user.userId user.socketId = user.key from rfl, hk]
        exact Option.some_ne_none _
      obtain ⟨hleaves, hnone⟩ := (hrun.session hw hs).mp hrecord
      obtain ⟨entry, hentry, hid⟩ := hlisted _ _ hs hleaves
      exact hnone entry hentry hid
    · cases hv
      exact carries_room p n hcarries
    · cases hv
    · cases hv

/- A has logged in. -/
def loggedIn : World :=
  Run.ends step World.initial (loginTrace ++ [.exec 0 (.done []), .reply 0])

theorem shutdown_clean_after_login : AllListed loggedIn 0 ∧
    ∀ tr v, ShutDown loggedIn 0 tr v → SessionsRemoved loggedIn 0 tr v := by
  have hreach : Reachable loggedIn := Run.reach_ends _ (by decide +kernel)
  have hlisted : AllListed loggedIn 0 := by
    intro u s hs hleaves
    have hw : WF loggedIn := WF.initial.reach hreach
    have hquiet : (loggedIn.procs 0).sent = [] := by decide +kernel
    have hkeys : loggedIn.db.keys = [uniquePattern ['u'] (socketIdOf ['A'])] := by decide +kernel
    have hentry : (loggedIn.procs 0).userList.get (socketIdOf ['A']) =
        some (createUserWithLogin 0 0 ['u'] (socketIdOf ['A']) (natText 1) (natText 2)) := by
      decide +kernel
    rw [Proc.leaves, hquiet, List.foldl_nil, Option.isSome_iff_exists] at hleaves
    have hmem := (Table.mem_keys_iff loggedIn.db _).mpr hleaves
    rw [hkeys] at hmem
    obtain ⟨hid, hsid⟩ :=
      hw.key_inj (hw.users 0 _ _ hentry).2.1.1 hs (List.mem_singleton.mp hmem).symm
    exact ⟨_, hsid ▸ hentry, hid⟩
  exact ⟨hlisted, (shutdown_clean_iff loggedIn 0 hreach).mpr hlisted⟩

/- Redis has executed the `HMSET` of A's login, and its callback has not run. -/
def recordedOnly : World := Run.ends step World.initial (loginTrace ++ [.exec 0 (.done [])])

theorem shutdown_leaves_session :
    ¬ ∀ (w : World) (p : Pid), Reachable w → ∀ tr v, ShutDown w p tr v →
      SessionsRemoved w p tr v := by
  intro hall
  have hrun : ShutDown recordedOnly 0 [] (recordedOnly.shutdown 0) :=
    ⟨.nil, fun s hs => absurd hs List.not_mem_nil, by decide +kernel⟩
  have hgone := (hall recordedOnly 0 (Run.reach_ends _ (by decide +kernel)) [] _ hrun).gone
  have hrecord : recordedOnly.db.get (uniquePattern ['u'] (socketIdOf ['A'])) = some (.hash
      (createUserWithLogin 0 0 ['u'] (socketIdOf ['A']) (natText 1) (natText 2)).record) := rfl
  exact hgone _ _ hrecord ((carries_record 0 _).mpr rfl)

end NodeServer

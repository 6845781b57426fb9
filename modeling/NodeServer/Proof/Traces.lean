import NodeServer.Proof.Steps

/-! # Executing traces

A trace is run by evaluation. A process no event names is still as it was
started, so that a trace of finitely many events can be seen to end in a
quiescent world. -/

namespace NodeServer

/-- The processes an event acts on. -/
def Event.pids : Event → List Pid
  | .connect p _ _ | .message p _ _ _ | .peerClose p _ | .wsError p _ | .wsClose p _ => [p]
  | .exec p _ | .reply p => [p]
  | .deliver q _ p => [q, p]

theorem step_untouched (w v : World) (e : Event) (q : Pid) (hq : q ∉ e.pids)
    (h : step w e = some v) : v.procs q = w.procs q := by
  have htake : (takeOff w e).procs q = w.procs q := by
    cases e with
    | reply p => exact setProc_ne w p q _ (by simpa [Event.pids] using hq)
    | deliver t n p =>
      have hne : q ≠ t := by
        intro he
        simp [Event.pids, he] at hq
      exact setProc_ne w t q _ hne
    | _ => rfl
  have hinput : ∀ p i, inputOf w e = some (p, i) → p ∈ e.pids := by
    intro p i hin
    have ha := inputOf_arrives w e p i hin
    cases i with
    | connect s now =>
      obtain ⟨suffix, rfl, _⟩ := ha
      exact List.mem_singleton.mpr rfl
    | packet packet =>
      obtain ⟨_, t, n, rfl, _⟩ := ha
      exact List.mem_cons_of_mem _ (List.mem_singleton.mpr rfl)
    | _ =>
      rw [ha.1]
      exact List.mem_singleton.mpr rfl
  cases e with
  | exec p outcome =>
    obtain ⟨c, r, hx⟩ := exec_cases w v p outcome h
    exact hx.others q (by simpa [Event.pids] using hq)
  | _ =>
    obtain ⟨⟨p, i⟩, hin, rfl⟩ := Option.map_eq_some_iff.mp h
    rw [setProc_ne _ p q _ fun he => hq (he ▸ hinput p i hin)]
    exact htake

theorem runs_untouched (es : List Event) (w v : World) (q : Pid)
    (hq : q ∉ es.flatMap Event.pids) (h : Run.runs step w es = some v) :
    v.procs q = w.procs q := by
  induction es generalizing w with
  | nil =>
    cases h
    rfl
  | cons e es ih =>
    simp only [List.flatMap_cons, List.mem_append, not_or] at hq
    obtain ⟨u, hu, hr⟩ := Option.bind_eq_some_iff.mp h
    rw [ih u hq.2 hr, step_untouched w u e q hq.1 hu]

/-- A process with nothing pending, by evaluation. -/
def Proc.quiet (x : Proc) : Bool :=
  x.sent.isEmpty && x.answered.isEmpty && x.outbox.isEmpty &&
    x.conns.keys.all fun s => x.ws s != some .closing

theorem quiet_iff (x : Proc) : x.quiet = true ↔
    x.sent = [] ∧ x.answered = [] ∧ x.outbox = [] ∧ ∀ s, x.ws s ≠ some .closing := by
  simp only [Proc.quiet, Bool.and_eq_true, List.isEmpty_iff, List.all_eq_true, bne_iff_ne, and_assoc]
  constructor
  · rintro ⟨h1, h2, h3, h4⟩
    refine ⟨h1, h2, h3, ?_⟩
    intro s hs
    have hmem : s ∈ x.conns.keys := by
      rw [Table.mem_keys_iff]
      obtain ⟨c, hc, _⟩ := Option.map_eq_some_iff.mp hs
      exact ⟨c, hc⟩
    exact h4 s hmem hs
  · rintro ⟨h1, h2, h3, h4⟩
    exact ⟨h1, h2, h3, fun s _ => h4 s⟩

/-- A trace after which every process it names is quiet ends quiescent. -/
theorem quiescent_ends (es : List Event) (v : World) (h : Run.runs step World.initial es = some v)
    (hquiet : ((es.flatMap Event.pids).all fun p => (v.procs p).quiet) = true) : Quiescent v := by
  intro p
  apply (quiet_iff (v.procs p)).mp
  by_cases hp : p ∈ es.flatMap Event.pids
  · exact List.all_eq_true.mp hquiet p hp
  · rw [runs_untouched es World.initial v p hp h]
    rfl

/-- A further run of the processes `ps`, with a test that can rely on the
others being as they were started. -/
theorem reach_of_test_from {ok : World → Event → Prop} (ps : List Pid) (test : World → Event → Bool)
    (sound : ∀ w e, (∀ q, q ∉ ps → w.procs q = Proc.initial) → test w e = true → ok w e)
    (w : World) (es : List Event) (hw : ∀ q, q ∉ ps → w.procs q = Proc.initial)
    (hpids : ((es.flatMap Event.pids).all fun p => decide (p ∈ ps)) = true)
    (hm : Run.meets step test w es = true) :
    Run.Reach step ok w (Run.ends step w es) := by
  refine Run.reach_of_meets (fun w => ∀ q, q ∉ ps → w.procs q = Proc.initial) es ?_ sound
    w _ hw hm (Run.runs_ends (Run.runs_of_meets es w hm))
  intro w e v he hw hs q hq
  rw [step_untouched w v e q ?_ hs]
  · exact hw q hq
  · intro hmem
    have hin := List.all_eq_true.mp hpids q (List.mem_flatMap.mpr ⟨e, he, hmem⟩)
    exact hq (of_decide_eq_true hin)

theorem reach_of_test {ok : World → Event → Prop} (ps : List Pid) (test : World → Event → Bool)
    (sound : ∀ w e, (∀ q, q ∉ ps → w.procs q = Proc.initial) → test w e = true → ok w e)
    (es : List Event) (hpids : ((es.flatMap Event.pids).all fun p => decide (p ∈ ps)) = true)
    (hm : Run.meets step test World.initial es = true) :
    Run.Reach step ok World.initial (Run.ends step World.initial es) :=
  reach_of_test_from ps test sound World.initial es (fun _ _ => rfl) hpids hm

theorem untouched_ends (ps : List Pid) (es : List Event)
    (hpids : ((es.flatMap Event.pids).all fun p => decide (p ∈ ps)) = true)
    (hrun : (Run.runs step World.initial es).isSome = true) (q : Pid) (hq : q ∉ ps) :
    (Run.ends step World.initial es).procs q = Proc.initial := by
  refine runs_untouched es World.initial _ q ?_ (Run.runs_ends hrun)
  intro hmem
  exact hq (of_decide_eq_true (List.all_eq_true.mp hpids q hmem))

theorem steps_untouched (ps : List Pid) (es : List Event) (w : World)
    (hw : ∀ q, q ∉ ps → w.procs q = Proc.initial)
    (hpids : ((es.flatMap Event.pids).all fun p => decide (p ∈ ps)) = true) (a : World × Event)
    (ha : a ∈ Run.steps step w es) (q : Pid) (hq : q ∉ ps) : a.1.procs q = Proc.initial := by
  induction es generalizing w with
  | nil => cases ha
  | cons e es ih =>
    rw [List.flatMap_cons, List.all_append, Bool.and_eq_true] at hpids
    rcases List.mem_cons.mp ha with rfl | ha
    · exact hw q hq
    · cases hs : step w e with
      | none =>
        rw [hs] at ha
        cases ha
      | some v =>
        rw [hs] at ha
        refine ih v ?_ hpids.2 ha
        intro r hr
        rw [step_untouched w v e r ?_ hs]
        · exact hw r hr
        · intro hmem
          exact hr (of_decide_eq_true (List.all_eq_true.mp hpids.1 r hmem))

/-! ### Serving one call -/

theorem Call.answerable (c : Call) (db : Store.Db) :
    ∃ order r, (c.txn.run db).2.inOrder order = some r := by
  cases c with
  | delRoomExec roomId hd =>
    exact Store.multi_inOrder (memberPattern roomId.text)
      [memberPattern roomId.text, roomPattern roomId.text] db
  | _ => exact ⟨_, _, Store.run_inOrder _ db⟩

/-- Redis can always take the oldest call of a process. -/
theorem exec_enabled {w : World} {p : Pid} {c : Call} {rest : List Call}
    (hsent : (w.procs p).sent = c :: rest) :
    ∃ order v, step w (.exec p (.done order)) = some v := by
  obtain ⟨order, r, hr⟩ := c.answerable w.db
  refine ⟨order, Option.isSome_iff_exists.mp ?_⟩
  simp only [step, execStep, hsent, hr, Option.map_some, Option.isSome_some]

theorem reply_enabled {w : World} {p : Pid} {cr : Call × Store.Reply}
    {rest : List (Call × Store.Reply)} (hans : (w.procs p).answered = cr :: rest) :
    ∃ v, step w (.reply p) = some v := by
  apply Option.isSome_iff_exists.mp
  simp only [step, inputOf, hans, Option.map_some, Option.isSome_some]

/-- Redis executes the oldest call of a process that waits for no callback, and
its callback runs. -/
theorem serve_call (w : World) (p : Pid) (c : Call) (rest : List Call) (order : List Str)
    (r : Store.Reply) (hsent : (w.procs p).sent = c :: rest) (hans : (w.procs p).answered = [])
    (hr : (c.txn.run w.db).2.inOrder order = some r) :
    Run.runs step w [.exec p (.done order), .reply p] =
      some { w.setProc p (({ w.procs p with sent := rest } : Proc).onReply p c r) with
        db := (c.txn.run w.db).1 } := by
  have hexec : step w (.exec p (.done order)) = some
      { w.setProc p { w.procs p with sent := rest, answered := [(c, r)] } with
        db := (c.txn.run w.db).1 } := by
    simp only [step, execStep, hsent, hr, hans, Option.map_some, List.nil_append]
  have hx : ({ w.procs p with sent := rest, answered := [] } : Proc) =
      { w.procs p with sent := rest } := by
    rw [← hans]
  simp only [Run.runs, hexec, Option.bind_some]
  simp only [step, inputOf, takeOff, World.setProc, if_true, Option.map_some, Option.bind_some,
    List.tail_cons, react, hx]
  congr 2
  funext q
  by_cases hq : q = p
  · simp only [hq, if_true]
  · simp only [hq, if_false]

/-- A request with the fields its route reads. -/
def Route.request (route : Route) (userId : Option Str) (roomId : JsVal) : Request :=
  ⟨1, route.name, userId, roomId, none, .undefined⟩

def loginRequest (userId : Str) : Request := Route.login.request (some userId) .undefined

def sendMsgRequest (toUserId msg : Str) : Request :=
  ⟨1, Route.sendMsg.name, none, .undefined, some toUserId, .str msg⟩

end NodeServer

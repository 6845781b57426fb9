import NodeServer.Proof.Announce

/-! # Notices of moves that take place

A callback tells of a move before its write is even sent. The write follows on
the same process, in the order of issue, and what it finds depends on the other
moves of the same user and on closes of the room. -/

namespace NodeServer

/- For the moves of one user in one room: they do not overlap between their
`SMEMBERS` and their write, one that lists others would change the set as it is
then, a write does not fail, and no close runs while a leave is underway. -/
structure TruthfulCall (m : Move) (u room : Str) (w : World) (outcome : Outcome) (c : Call) :
    Prop where
  alone : c.reads u room m = true → ∀ q, (w.procs q).underway m u room = 0
  due : c.reads u room m = true → outcome.ran = true →
    (∃ other ∈ members w.db room, other ≠ u) → m.due u room w.db
  writes : c.writes u room m = true → outcome.ran = true
  close : m = .leave → outcome.ran = true → ∀ roomId hd, c = .delRoomExec roomId hd →
    roomId.text = room → ∀ q, (w.procs q).underway m u room = 0

def Truthful (m : Move) (u room : Str) (w : World) (e : Event) : Prop :=
  AtExec (TruthfulCall m u room w) w e

/- One move is underway at most, and those that will tell others are due. -/
structure Announcing (m : Move) (u room : Str) (w : World) : Prop where
  wf : WF w
  single : ∃ p, (w.procs p).underway m u room ≤ 1 ∧
    ∀ q, q ≠ p → (w.procs q).underway m u room = 0
  due : ∀ p c r, (c, r) ∈ (w.procs p).answered → c.reads u room m = true → othersIn u r ≠ [] →
    m.due u room w.db

section

variable {m : Move} {u room : Str} {w v : World} {e : Event} {p : Pid} {c : Call}

/-- Two moves cannot be underway on one process, nor on two. -/
theorem Announcing.same (h : Announcing m u room w) {q : Pid}
    (hp : (w.procs p).underway m u room ≠ 0) (hq : (w.procs q).underway m u room ≠ 0) :
    p = q ∧ (w.procs p).underway m u room = 1 := by
  obtain ⟨t, hone, hzero⟩ := h.single
  have hpt : p = t := by
    by_contra hne
    exact hp (hzero p hne)
  have hqt : q = t := by
    by_contra hne
    exact hq (hzero q hne)
  subst hpt hqt
  exact ⟨rfl, by omega⟩

/-- The write of another call cannot run between a read and its own write. -/
theorem Announcing.no_write (h : Announcing m u room w) {q : Pid} {d : Call} {r : Store.Reply}
    (hd : (d, r) ∈ (w.procs q).answered) (hread : d.reads u room m = true)
    (hc : c ∈ (w.procs p).sent) : c.writes u room m = false := by
  by_contra hwrite
  have hwrite : c.writes u room m = true := by simpa using hwrite
  obtain ⟨rfl, hone⟩ := h.same (underway_write hc hwrite) (underway_read hd hread)
  have hreads : 0 < (w.procs p).answered.countP fun cr => cr.1.reads u room m :=
    List.countP_pos_iff.mpr ⟨_, hd, hread⟩
  have hwrites : 0 < (w.procs p).sent.countP (Call.writes u room m) :=
    List.countP_pos_iff.mpr ⟨_, hc, hwrite⟩
  simp only [Proc.underway] at hone
  omega

/-- While a move is underway, only a write of such a move changes what is due. -/
theorem Executed.due {r : Store.Reply} {outcome : Outcome} (h : Executed w v e p c r) (hw : WF w)
    (he : e = .exec p outcome) (hok : TruthfulCall m u room w outcome c)
    (hwrite : c.writes u room m = false) {q : Pid} (hq : (w.procs q).underway m u room ≠ 0)
    (hdue : m.due u room w.db) : m.due u room v.db := by
  cases m with
  | enter =>
    intro hin
    rcases h.entered hw hin with hin | hc
    · exact hdue hin
    · rw [hwrite] at hc
      cases hc
  | leave =>
    have hdue : u ∈ members w.db room := hdue
    show u ∈ members v.db room
    rcases h.member_cases hw room u with hsame | ⟨_, _, _, _, _, _, _, _, hin⟩ |
      ⟨user, roomId, hd, rfl, ht, hu, _⟩ | ⟨roomId, hd, order, rfl, ht, hdone, _⟩
    · exact hsame.mpr hdue
    · exact hin
    · simp [Call.writes, ht, hu] at hwrite
    · rw [he] at hdone
      cases hdone
      exact absurd (hok.close rfl rfl roomId hd rfl ht q) hq

theorem Announcing.executed {r : Store.Reply} (hinv : Announcing m u room w)
    (hok : Truthful m u room w e) (h : Executed w v e p c r) : Announcing m u room v := by
  obtain ⟨outcome, he, hcall⟩ := h.atExec hok
  refine ⟨hinv.wf.executed h, ?_, ?_⟩
  · by_cases hread : c.reads u room m = true
    · have hzero := hcall.alone hread
      refine ⟨p, ?_, ?_⟩
      · have hcount := h.underway m u room
        rw [hzero p, reads_not_writes hread, hread] at hcount
        simp only [Bool.false_eq_true, if_false, if_true] at hcount
        omega
      · intro q hq
        rw [h.others q hq]
        exact hzero q
    · have hle := h.underway_le (by simpa using hread : c.reads u room m = false)
      obtain ⟨t, hone, hzero⟩ := hinv.single
      refine ⟨t, Nat.le_trans (hle t) hone, ?_⟩
      intro q hq
      have hq' := hle q
      rw [hzero q hq] at hq'
      omega
  · intro q d r' hm hread hothers
    rcases h.mem_answered q d r' hm with hold | ⟨rfl, rfl, rfl⟩
    · exact h.due hinv.wf he hcall (hinv.no_write hold hread h.mem_sent)
        (underway_read hold hread) (hinv.due q d r' hold hread hothers)
    · cases hran : outcome.ran with
      | false =>
        rcases h.db with ⟨order, hdone, _⟩ | ⟨message, _, _, rfl⟩
        · rw [he] at hdone
          cases hdone
          cases hran
        · exact absurd rfl hothers
      | true =>
        obtain ⟨hdb, res, rfl, hres⟩ := h.listed hinv.wf he hran hread
        obtain ⟨other, hother⟩ := List.exists_mem_of_ne_nil _ hothers
        obtain ⟨hin, hne⟩ := List.mem_filter.mp hother
        rw [hdb]
        exact hcall.due hread hran ⟨other, (hres other).mp hin, by simpa using hne⟩

theorem Announcing.step (hinv : Announcing m u room w) (hok : Truthful m u room w e)
    (hs : NodeServer.step w e = some v) : Announcing m u room v := by
  rcases step_cases w v e hs with ⟨p, c, r, hx⟩ | ⟨p, i, x, hx⟩
  · exact hinv.executed hok hx
  · refine ⟨hinv.wf.handled hx, ?_, ?_⟩
    · simpa only [hx.underway hinv.wf] using hinv.single
    · intro q c r hm hread hothers
      rw [hx.db]
      exact hinv.due q c r (hx.answered_sub hinv.wf q _ hm) hread hothers

theorem Announcing.initial (m : Move) (u room : Str) : Announcing m u room World.initial := by
  refine ⟨WF.initial, ⟨0, Nat.zero_le 1, fun _ _ => rfl⟩, ?_⟩
  intro p c r hm
  cases hm

end

/-! ### From the notice to the write -/

/- How many calls of a process Redis has executed. -/
def execs (p : Pid) (tr : List (World × Event)) : ℕ :=
  tr.countP fun s => match s.2 with
    | .exec q _ => q = p
    | _ => false

theorem execs_exec (p q : Pid) (tr : List (World × Event)) (w : World) (outcome : Outcome) :
    execs p (tr ++ [(w, .exec q outcome)]) = execs p tr + if q = p then 1 else 0 := by
  simp [execs, List.countP_append, List.countP_cons]

theorem execs_input (p : Pid) (tr : List (World × Event)) {w : World} {e : Event} {qi : Pid × Input}
    (h : inputOf w e = some qi) : execs p (tr ++ [(w, e)]) = execs p tr := by
  cases e with
  | exec q outcome => cases h
  | _ => simp [execs, List.countP_append]

/- The write waits behind as many calls as are still to be executed. -/
structure Waiting (m : Move) (u room : Str) (p : Pid) (n : ℕ) (tr : List (World × Event))
    (w : World) : Prop where
  announcing : Announcing m u room w
  due : m.due u room w.db
  queued : ∃ front c back, (w.procs p).sent = front ++ c :: back ∧ c.writes u room m = true ∧
    front.length + execs p tr = n

section

variable {m : Move} {u room : Str} {p : Pid} {n : ℕ} {tr : List (World × Event)} {w v : World}
  {e : Event}

theorem Waiting.executed {q : Pid} {c : Call} {r : Store.Reply} (hwait : Waiting m u room p n tr w)
    (hok : Truthful m u room w e) (hle : execs p (tr ++ [(w, e)]) ≤ n)
    (h : Executed w v e q c r) : Waiting m u room p n (tr ++ [(w, e)]) v := by
  obtain ⟨outcome, he, hcall⟩ := h.atExec hok
  obtain ⟨front, d, back, hsent, hd, hlen⟩ := hwait.queued
  have hinv := hwait.announcing
  have hdmem : d ∈ (w.procs p).sent := by
    rw [hsent]
    exact List.mem_append_right _ (List.mem_cons_self ..)
  have hunder := underway_write hdmem hd
  subst he
  rw [execs_exec] at hle
  by_cases hq : q = p
  · subst hq
    simp only [if_true] at hle
    -- the executed call stands before the write, so it is not another write
    cases front with
    | nil =>
      simp only [List.length_nil] at hlen
      omega
    | cons first front =>
      have hboth : c :: (v.procs q).sent = first :: (front ++ d :: back) := by
        rw [← h.sent, hsent]
        rfl
      obtain ⟨hc, hrest⟩ := List.cons.inj hboth
      have hwrite : c.writes u room m = false := by
        by_contra hwrite
        have hone := (hinv.same hunder hunder).2
        have hcount : 2 ≤ (w.procs q).sent.countP (Call.writes u room m) := by
          rw [h.sent, hrest]
          simp only [List.countP_cons, List.countP_append, hd, if_true]
          simp only [show c.writes u room m = true by simpa using hwrite, if_true]
          omega
        simp only [Proc.underway] at hone
        omega
      refine ⟨hinv.executed hok h, h.due hinv.wf rfl hcall hwrite hunder hwait.due,
        front, d, back, hrest, hd, ?_⟩
      rw [execs_exec]
      simp only [List.length_cons] at hlen
      simp only [if_true]
      omega
  · have hwrite : c.writes u room m = false := by
      by_contra hwrite
      exact hq (hinv.same hunder (underway_write h.mem_sent (by simpa using hwrite))).1.symm
    refine ⟨hinv.executed hok h, h.due hinv.wf rfl hcall hwrite hunder hwait.due,
      front, d, back, ?_, hd, ?_⟩
    · rw [h.others p (Ne.symm hq), hsent]
    · rw [execs_exec, if_neg hq, Nat.add_zero]
      exact hlen

theorem Waiting.step (hwait : Waiting m u room p n tr w) (hok : Truthful m u room w e)
    (hle : execs p (tr ++ [(w, e)]) ≤ n) (hs : NodeServer.step w e = some v) :
    Waiting m u room p n (tr ++ [(w, e)]) v := by
  rcases step_cases w v e hs with ⟨q, c, r, hx⟩ | ⟨q, i, x, hx⟩
  · exact hwait.executed hok hle hx
  · obtain ⟨front, d, back, hsent, hd, hlen⟩ := hwait.queued
    refine ⟨hwait.announcing.step hok hs, by rw [hx.db]; exact hwait.due, ?_⟩
    rw [execs_input p tr hx.input]
    by_cases hq : p = q
    · subst hq
      refine ⟨front, d, back ++ x.issued p i, ?_, hd, hlen⟩
      rw [hx.issued hwait.announcing.wf, hsent, List.append_assoc, List.cons_append]
    · exact ⟨front, d, back, by rw [(hx.other_conns p hq).2.2.1, hsent], hd, hlen⟩

/-- The callback that tells others issues the write last. -/
theorem Announcing.waiting (hinv : Announcing m u room w)
    (hs : NodeServer.step w (.reply p) = some v)
    (htold : w.announced m u room (.reply p) ≠ []) (hn : n + 1 = (v.procs p).sent.length) :
    m.due u room v.db ∧ ∃ front c back, (v.procs p).sent = front ++ c :: back ∧
      c.writes u room m = true ∧ front.length + execs p [] = n := by
  obtain ⟨q, i, x, hx⟩ := step_handled hs rfl
  have hread : ∃ c r, i = .reply c r ∧ c.reads u room m = true := by
    by_contra hnone
    apply htold
    rw [World.announced, if_neg]
    simp only [World.told, hx.input]
    cases i with
    | reply c r =>
      intro hc
      exact hnone ⟨c, r, rfl, hc⟩
    | _ => exact Bool.false_ne_true
  obtain ⟨c, r, rfl, hc⟩ := hread
  have hqp : q = p := by
    have hin := hx.input
    simp only [inputOf] at hin
    split at hin
    · cases hin
    · cases hin
      rfl
  subst hqp
  rw [hx.announced hinv.wf hs rfl hc] at htold
  obtain ⟨d, hd, hcalls⟩ := replyCalls_reads (p := q) (x := x) hc r
  have hsent : (v.procs q).sent =
      ((w.procs q).sent ++ fanOut (m.notice u) (othersIn u r)) ++ d :: [] := by
    rw [hx.issued hinv.wf, List.append_assoc]
    exact congrArg _ hcalls
  refine ⟨?_, _, d, [], hsent, hd, ?_⟩
  · rw [hx.db]
    exact hinv.due q c r (hx.reply_mem c r rfl) hc htold
  · rw [hsent] at hn
    simp only [List.length_append, List.length_cons, List.length_nil] at hn ⊢
    simp only [execs, List.countP_nil]
    omega

end

theorem notices_truthful (m : Move) (u room : Str) {w₀ w₁ w₂ w₃ : World} {p : Pid}
    {tr : List (World × Event)} {outcome : Outcome}
    (hreach : Run.Reach step (Truthful m u room) World.initial w₀)
    (hcall : step w₀ (.reply p) = some w₁) (htold : w₀.announced m u room (.reply p) ≠ [])
    (hpath : Run.Path step w₁ tr w₂) (hok : ∀ s ∈ tr, Truthful m u room s.1 s.2)
    (hlast : execs p tr + 1 = (w₁.procs p).sent.length)
    (hexec : step w₂ (.exec p outcome) = some w₃) (hokLast : Truthful m u room w₂ (.exec p outcome)) :
    ∃ c rest, (w₂.procs p).sent = c :: rest ∧ c.writes u room m = true ∧
      m.due u room w₂.db ∧ ¬ m.due u room w₃.db := by
  have h₀ : Announcing m u room w₀ := Run.Reach.invariant (Announcing m u room)
    (Announcing.initial m u room) (fun w e v hinv hok hs => hinv.step hok hs) hreach
  have hreply : Truthful m u room w₀ (.reply p) := by
    intro q outcome c he
    cases he
  obtain ⟨hdue, hqueued⟩ := h₀.waiting hcall htold hlast
  have hinv := Run.Path.invariant (fun tr' w => (∀ s ∈ tr', Truthful m u room s.1 s.2) →
    execs p tr' ≤ execs p tr → Waiting m u room p (execs p tr) tr' w) ?_ ?_ hpath
  · obtain ⟨hann, hdue, front, c, back, hsent, hc, hlen⟩ := hinv hok (Nat.le_refl _)
    have hfront : front = [] := List.eq_nil_of_length_eq_zero (by omega)
    subst hfront
    refine ⟨c, back, hsent, hc, hdue, ?_⟩
    obtain ⟨d, r, hx⟩ := exec_cases w₂ w₃ p outcome hexec
    have hd : d = c := by
      have hboth := hx.sent.symm.trans hsent
      exact (List.cons.inj hboth).1
    subst hd
    obtain ⟨outcome', he, hcall⟩ := hx.atExec hokLast
    cases he
    exact hx.not_due hann.wf rfl (hcall.writes hc) hc
  · intro _ _
    exact ⟨h₀.step hreply hcall, hdue, hqueued⟩
  · intro tr' w e v hwait hs hall hle
    have hmono : execs p tr' ≤ execs p (tr' ++ [(w, e)]) := by
      simp only [execs, List.countP_append]
      omega
    exact (hwait (fun s hs => hall s (List.mem_append_left _ hs)) (Nat.le_trans hmono hle)).step
      (hall (w, e) (List.mem_append_right _ (List.mem_singleton_self _))) hle hs

def truthfulTest (ps : List Pid) (u room : Str) (w : World) (e : Event) : Bool :=
  atExecTest (fun outcome c =>
    (!c.reads u room .enter ||
      ((ps.all fun q => (w.procs q).underway .enter u room = 0) && u ∉ members w.db room)) &&
    (!c.writes u room .enter || outcome.ran)) w e

theorem truthfulTest_sound (ps : List Pid) (u room : Str) (w : World) (e : Event)
    (hidle : ∀ q, q ∉ ps → w.procs q = Proc.initial) (h : truthfulTest ps u room w e = true) :
    Truthful .enter u room w e := by
  refine atExecTest_sound ?_ h
  intro outcome c htest
  simp only [Bool.and_eq_true, Bool.or_eq_true, Bool.not_eq_true', List.all_eq_true,
    decide_eq_true_eq] at htest
  obtain ⟨hread, hwrite⟩ := htest
  refine ⟨?_, ?_, ?_, nofun⟩
  · intro hc q
    rw [hc] at hread
    by_cases hq : q ∈ ps
    · exact (hread.resolve_left nofun).1 q hq
    · rw [hidle q hq]
      rfl
  · intro hc _ _
    rw [hc] at hread
    exact (hread.resolve_left nofun).2
  · intro hc
    rw [hc] at hwrite
    exact hwrite.resolve_left nofun

/- A is in room 1, and the `SMEMBERS` of a join of B has listed it. -/
def joinListedTrace : List Event :=
  twoUsersTrace ++ roomInOf 0 ['A'] 6 :: served 0 [roomPattern ['1']] ++ served 0 [] ++
    served 0 [] ++ roomInOf 1 ['B'] 7 :: served 1 [roomPattern ['1']] ++ [.exec 1 (.done [['u']])]

/- The lookup of A that the notice begins with. -/
def noticeLookup : Event := .exec 1 (.done [uniquePattern ['u'] (socketIdOf ['A'])])

def joinTold : World := Run.ends step World.initial (joinListedTrace ++ [.reply 1])

theorem notices_truthful_join :
    ∃ c rest, ((Run.ends step joinTold [noticeLookup]).procs 1).sent = c :: rest ∧
      c.writes ['v'] ['1'] .enter = true ∧
      Move.enter.due ['v'] ['1'] (Run.ends step joinTold [noticeLookup]).db ∧
      ¬ Move.enter.due ['v'] ['1'] (Run.ends step joinTold [noticeLookup, .exec 1 (.done [])]).db := by
  -- the trace is evaluated once for everything that is read off it
  obtain ⟨hrun, hlookup, hlast, htest, hnext, hmeets, htold, hcount⟩ :
      (Run.runs step World.initial (joinListedTrace ++ [.reply 1])).isSome = true ∧
      (Run.runs step joinTold [noticeLookup]).isSome = true ∧
      (Run.runs step joinTold ([noticeLookup] ++ [.exec 1 (.done [])])).isSome = true ∧
      (Run.steps step joinTold [noticeLookup]).all (fun s =>
        truthfulTest [0, 1] ['v'] ['1'] s.1 s.2) = true ∧
      truthfulTest [0, 1] ['v'] ['1'] (Run.ends step joinTold [noticeLookup])
        (.exec 1 (.done [])) = true ∧
      Run.meets step (truthfulTest [0, 1] ['v'] ['1']) World.initial joinListedTrace = true ∧
      (Run.ends step World.initial joinListedTrace).announced .enter ['v'] ['1'] (.reply 1) ≠ [] ∧
      execs 1 (Run.steps step joinTold [noticeLookup]) + 1 = (joinTold.procs 1).sent.length := by
    decide +kernel
  have hidle : ∀ q, q ∉ [0, 1] → joinTold.procs q = Proc.initial :=
    untouched_ends [0, 1] _ (by decide) hrun
  have hreach : Run.Reach step (Truthful .enter ['v'] ['1']) World.initial
      (Run.ends step World.initial joinListedTrace) :=
    reach_of_test [0, 1] _ (truthfulTest_sound [0, 1] ['v'] ['1']) joinListedTrace (by decide) hmeets
  refine notices_truthful .enter ['v'] ['1'] hreach (Run.step_ends hrun) htold
    (Run.path_ends [noticeLookup] hlookup) ?_ hcount (Run.step_ends hlast) ?_
  · intro s hs
    exact truthfulTest_sound [0, 1] _ _ _ _
      (steps_untouched [0, 1] [noticeLookup] joinTold hidle (by decide) s hs)
      (List.all_eq_true.mp htest s hs)
  · refine truthfulTest_sound [0, 1] _ _ _ _ ?_ hnext
    intro q hq
    rw [runs_untouched [noticeLookup] joinTold _ q ?_ (Run.runs_ends hlookup)]
    · exact hidle q hq
    · intro hmem
      exact hq (List.mem_cons_of_mem _ hmem)

/- B is in room 1 with A, joins it again, and the `SMEMBERS` has listed both. -/
def rejoinListedTrace : List Event :=
  twoUsersTrace ++ joinInTurnTrace ++ served 1 [] ++ roomInOf 1 ['B'] 8 ::
    served 1 [roomPattern ['1']] ++ [.exec 1 (.done [['u'], ['v']])]

def rejoinTold : World := Run.ends step World.initial (rejoinListedTrace ++ [.reply 1])

theorem rejoin_announced :
    ¬ ∀ (m : Move) (u room : Str) (w₀ w₁ w₂ w₃ : World) (p : Pid) (tr : List (World × Event))
      (outcome : Outcome), Reachable w₀ → step w₀ (.reply p) = some w₁ →
      w₀.announced m u room (.reply p) ≠ [] → Run.Path step w₁ tr w₂ →
      execs p tr + 1 = (w₁.procs p).sent.length → step w₂ (.exec p outcome) = some w₃ →
      m.due u room w₂.db ∧ ¬ m.due u room w₃.db := by
  intro hall
  obtain ⟨hrun, hlisted, hlookup, hlast, htold, hcount, hin⟩ :
      (Run.runs step World.initial (rejoinListedTrace ++ [.reply 1])).isSome = true ∧
      (Run.runs step World.initial rejoinListedTrace).isSome = true ∧
      (Run.runs step rejoinTold [noticeLookup]).isSome = true ∧
      (Run.runs step rejoinTold ([noticeLookup] ++ [.exec 1 (.done [])])).isSome = true ∧
      (Run.ends step World.initial rejoinListedTrace).announced .enter ['v'] ['1'] (.reply 1) ≠ [] ∧
      execs 1 (Run.steps step rejoinTold [noticeLookup]) + 1 = (rejoinTold.procs 1).sent.length ∧
      ['v'] ∈ members (Run.ends step rejoinTold [noticeLookup]).db ['1'] := by decide +kernel
  have hdue := (hall .enter ['v'] ['1'] _ rejoinTold _ _ 1 (Run.steps step rejoinTold [noticeLookup])
    (.done []) (Run.reach_ends rejoinListedTrace hlisted) (Run.step_ends hrun) htold
    (Run.path_ends [noticeLookup] hlookup) hcount (Run.step_ends hlast)).1
  exact hdue hin

end NodeServer

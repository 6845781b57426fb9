import NodeServer.Proof.Leaving
import NodeServer.Proof.Responses

/-! # Who is told of a join or a leave

`addRoomUser` and `delRoomUser` list the members in one round trip, tell them in
its callback and write the set in the next one. What the callback tells rests on
a list that joins, leaves and closes of other calls may have outdated. -/

namespace NodeServer

/-! ### Conditions on executed calls -/

def Outcome.ran : Outcome → Bool
  | .done _ => true
  | .failed _ => false

/- What holds of the call an event executes, and of its outcome. -/
def AtExec (P : Outcome → Call → Prop) (w : World) (e : Event) : Prop :=
  ∀ p outcome c, e = .exec p outcome → (w.procs p).sent.head? = some c → P outcome c

theorem Executed.atExec {w v : World} {e : Event} {p : Pid} {c : Call} {r : Store.Reply}
    {P : Outcome → Call → Prop} (h : Executed w v e p c r) (hP : AtExec P w e) :
    ∃ outcome, e = .exec p outcome ∧ P outcome c := by
  rcases h.db with ⟨order, he, _⟩ | ⟨message, he, _⟩
  · exact ⟨_, he, hP p _ c he h.sent_head⟩
  · exact ⟨_, he, hP p _ c he h.sent_head⟩

def atExecTest (test : Outcome → Call → Bool) (w : World) : Event → Bool
  | .exec p outcome =>
    match (w.procs p).sent with
    | c :: _ => test outcome c
    | [] => true
  | _ => true

theorem atExecTest_sound {P : Outcome → Call → Prop} {test : Outcome → Call → Bool} {w : World}
    {e : Event} (sound : ∀ outcome c, test outcome c = true → P outcome c)
    (h : atExecTest test w e = true) : AtExec P w e := by
  intro p outcome c he hhead
  subst he
  obtain ⟨rest, hsent⟩ := List.head?_eq_some_iff.mp hhead
  simp only [atExecTest, hsent] at h
  exact sound outcome c h

/-! ### Moves -/

inductive Move where
  | enter
  | leave
  deriving DecidableEq

/- The `SMEMBERS` of a move of `u` into or out of the room. -/
def Call.reads (u room : Str) : Move → Call → Bool
  | .enter, .addRoomUserMembers user roomId _ => user.userId = u && roomId.text = room
  | .leave, .delRoomUserMembers (some user) roomId _ => user.userId = u && roomId.text = room
  | _, _ => false

/- Its `SADD` or `SREM`. -/
def Call.writes (u room : Str) : Move → Call → Bool
  | .enter, .addRoomUserAdd user roomId _ => user.userId = u && roomId.text = room
  | .leave, .delRoomUserRem user roomId _ => user.userId = u && roomId.text = room
  | _, _ => false

def Move.notice (u : Str) : Move → Notice
  | .enter => .roomIn u
  | .leave => .roomOut u

/- The write of the move would change the member set. -/
def Move.due (u room : Str) (db : Store.Db) : Move → Prop
  | .enter => u ∉ members db room
  | .leave => u ∈ members db room

/- The moves whose `SMEMBERS` has run and whose write has not. -/
def Proc.underway (x : Proc) (m : Move) (u room : Str) : ℕ :=
  x.answered.countP (fun cr => cr.1.reads u room m) + x.sent.countP (Call.writes u room m)

/-! ### Notices sent -/

/- The `NoticeSender.send` that issued a call: whom it addresses, and with what. -/
def Call.sendTo : Call → Option (Str × Notice)
  | .lookupKeys userId (.notice notice _) => some (userId, notice)
  | _ => none

/- The notices a step gives to `NoticeSender.send`. -/
def World.notices (w : World) (e : Event) : List (Str × Notice) :=
  match inputOf w e, step w e with
  | some (p, _), some v => ((v.procs p).sent.drop (w.procs p).sent.length).filterMap Call.sendTo
  | _, _ => []

/- The step runs the callback of the `SMEMBERS` of such a move. -/
def World.told (w : World) (m : Move) (u room : Str) (e : Event) : Bool :=
  match inputOf w e with
  | some (_, .reply c _) => c.reads u room m
  | _ => false

/- The users whom such a callback tells of the move. -/
def World.announced (w : World) (m : Move) (u room : Str) (e : Event) : List Str :=
  if w.told m u room e then
    ((w.notices e).filter fun n => n.2 = m.notice u).map Prod.fst
  else []

/- The members but `u` that a reply lists. -/
def othersIn (u : Str) : Store.Reply → List Str
  | .array res => res.filter (· ≠ u)
  | _ => []

section

variable {u room : Str} {m : Move} {c : Call} {p : Pid} {i : Input} {x : Proc}

theorem reads_not_writes (h : c.reads u room m = true) : c.writes u room m = false := by
  cases m with
  | enter =>
    cases c with
    | addRoomUserMembers user roomId hd => rfl
    | _ => cases h
  | leave =>
    cases c with
    | delRoomUserMembers user roomId hd => rfl
    | _ => cases h

/-- The callback of the `SMEMBERS` tells the others listed, then writes. -/
theorem replyCalls_reads (h : c.reads u room m = true) (r : Store.Reply) :
    ∃ d, d.writes u room m = true ∧
      x.replyCalls p c r = fanOut (m.notice u) (othersIn u r) ++ [d] := by
  cases m with
  | enter =>
    cases c with
    | addRoomUserMembers user roomId hd =>
      have hu : user.userId = u := by simp_all [Call.reads]
      subst hu
      refine ⟨.addRoomUserAdd user roomId hd, h, ?_⟩
      cases r with
      | _ => rfl
    | _ => cases h
  | leave =>
    cases c with
    | delRoomUserMembers user roomId hd =>
      cases user with
      | none => cases h
      | some user =>
        have hu : user.userId = u := by simp_all [Call.reads]
        subst hu
        refine ⟨.delRoomUserRem user roomId hd, h, ?_⟩
        cases r with
        | _ => rfl
    | _ => cases h

theorem Origin.reads (ho : Origin p i x c) (hc : c.writes u room m = true) :
    ∃ c₀ r, i = .reply c₀ r ∧ c₀.reads u room m = true := by
  cases m with
  | enter =>
    cases ho with
    | addRoomUserAdd user roomId hd r replied => exact ⟨_, r, replied, hc⟩
    | _ => cases hc
  | leave =>
    cases ho with
    | delRoomUserRem user roomId hd r replied => exact ⟨_, r, replied, hc⟩
    | _ => cases hc

theorem fanOut_writes (notice : Notice) (users : List Str) :
    (fanOut notice users).countP (Call.writes u room m) = 0 := by
  rw [List.countP_eq_zero]
  intro c hc
  obtain ⟨v, _, rfl⟩ := List.mem_map.mp hc
  cases m with
  | _ => exact Bool.false_ne_true

theorem fanOut_sendTo (notice : Notice) (users : List Str) :
    (fanOut notice users).filterMap Call.sendTo = users.map fun v => (v, notice) := by
  induction users with
  | nil => rfl
  | cons v rest ih => exact congrArg ((v, notice) :: ·) ih

theorem writes_sendTo (h : c.writes u room m = true) : c.sendTo = none := by
  cases c with
  | lookupKeys userId next =>
    cases m with
    | _ => cases h
  | _ => rfl

variable {w v : World} {e : Event}

/-- A handled input starts no write but that of the move it answers. -/
theorem Handled.issued_writes (h : Handled w v e p i x) (hw : WF w) :
    (x.issued p i).countP (Call.writes u room m) =
      i.replied.countP fun cr => cr.1.reads u room m := by
  by_cases hread : ∃ c r, i = .reply c r ∧ c.reads u room m = true
  · obtain ⟨c, r, rfl, hc⟩ := hread
    obtain ⟨d, hd, hcalls⟩ := replyCalls_reads hc r
    show (x.replyCalls p c r).countP _ = _
    rw [hcalls, List.countP_append, fanOut_writes]
    simp [Input.replied, hd, hc]
  · have hnone : (x.issued p i).countP (Call.writes u room m) = 0 := by
      rw [List.countP_eq_zero]
      intro c hc hwr
      exact hread ((h.issued_origin hw c hc).reads hwr)
    have hzero : (i.replied.countP fun cr => cr.1.reads u room m) = 0 := by
      rw [List.countP_eq_zero]
      intro cr hcr hrd
      cases i with
      | reply c r =>
        rw [List.mem_singleton.mp hcr] at hrd
        exact hread ⟨c, r, rfl, hrd⟩
      | _ => cases hcr
    rw [hnone, hzero]

theorem Handled.underway (h : Handled w v e p i x) (hw : WF w) (q : Pid) :
    (v.procs q).underway m u room = (w.procs q).underway m u room := by
  by_cases hq : q = p
  · subst hq
    obtain ⟨news, outs, heff⟩ := h.effect hw
    have hissued : (x.issued q i).countP (Call.writes u room m) =
        i.replied.countP fun cr => cr.1.reads u room m := h.issued_writes hw
    simp only [Proc.underway, h.issued hw, h.answered, heff.answered, List.countP_append]
    omega
  · obtain ⟨_, _, hsent, hans⟩ := h.other_conns q hq
    simp only [Proc.underway, hsent, hans]

theorem Executed.underway {r : Store.Reply} (h : Executed w v e p c r) (m : Move) (u room : Str) :
    (v.procs p).underway m u room + (if c.writes u room m then 1 else 0) =
      (w.procs p).underway m u room + (if c.reads u room m then 1 else 0) := by
  simp only [Proc.underway, h.sent, h.answered, List.countP_append, List.countP_cons,
    List.countP_nil]
  omega

theorem Handled.notices (h : Handled w v e p i x) (hw : WF w) (hs : step w e = some v) :
    w.notices e = (x.issued p i).filterMap Call.sendTo := by
  simp only [World.notices, h.input, hs, h.issued hw, List.drop_left]

theorem Handled.announced (h : Handled w v e p i x) (hw : WF w) (hs : step w e = some v) {c : Call}
    {r : Store.Reply} (hi : i = .reply c r) (hc : c.reads u room m = true) :
    w.announced m u room e = othersIn u r := by
  subst hi
  have htold : w.told m u room e = true := by
    simp only [World.told, h.input]
    exact hc
  obtain ⟨d, hd, hcalls⟩ := replyCalls_reads (p := p) (x := x) hc r
  have hnotices : w.notices e = (othersIn u r).map fun v => (v, m.notice u) := by
    rw [h.notices hw hs]
    show (x.replyCalls p c r).filterMap _ = _
    rw [hcalls, List.filterMap_append, fanOut_sendTo]
    simp [writes_sendTo hd]
  rw [World.announced, if_pos htold, hnotices, List.filter_map, List.map_map]
  simp [Function.comp_def]

theorem Executed.underway_le {r : Store.Reply} (h : Executed w v e p c r)
    (hc : c.reads u room m = false) (q : Pid) :
    (v.procs q).underway m u room ≤ (w.procs q).underway m u room := by
  by_cases hq : q = p
  · subst hq
    have hcount := h.underway m u room
    simp only [hc, Bool.false_eq_true, if_false, Nat.add_zero] at hcount
    omega
  · rw [h.others q hq]

theorem underway_read {q : Pid} {r : Store.Reply} (hm : (c, r) ∈ (w.procs q).answered)
    (hc : c.reads u room m = true) : (w.procs q).underway m u room ≠ 0 := by
  have hpos : 0 < (w.procs q).answered.countP fun cr => cr.1.reads u room m :=
    List.countP_pos_iff.mpr ⟨_, hm, hc⟩
  simp only [Proc.underway]
  omega

theorem underway_write {q : Pid} (hm : c ∈ (w.procs q).sent)
    (hc : c.writes u room m = true) : (w.procs q).underway m u room ≠ 0 := by
  have hpos : 0 < (w.procs q).sent.countP (Call.writes u room m) :=
    List.countP_pos_iff.mpr ⟨_, hm, hc⟩
  simp only [Proc.underway]
  omega

end

/-! ### What the writes do -/

section

variable {u room : Str} {c : Call} {p : Pid} {w v : World} {e : Event} {r : Store.Reply}

theorem writes_enter (h : c.writes u room .enter = true) :
    ∃ user roomId hd, c = .addRoomUserAdd user roomId hd ∧ user.userId = u ∧ roomId.text = room := by
  cases c with
  | addRoomUserAdd user roomId hd => exact ⟨user, roomId, hd, rfl, by simpa [Call.writes] using h⟩
  | _ => cases h

theorem writes_leave (h : c.writes u room .leave = true) :
    ∃ user roomId hd, c = .delRoomUserRem user roomId hd ∧ user.userId = u ∧ roomId.text = room := by
  cases c with
  | delRoomUserRem user roomId hd => exact ⟨user, roomId, hd, rfl, by simpa [Call.writes] using h⟩
  | _ => cases h

/-- The `SMEMBERS` of a move leaves the sets as they are and lists the members. -/
theorem Executed.listed {m : Move} {outcome : Outcome} (h : Executed w v e p c r) (hw : WF w)
    (he : e = .exec p outcome) (hran : outcome.ran = true) (hc : c.reads u room m = true) :
    v.db = w.db ∧ ∃ res, r = .array res ∧ ∀ other, other ∈ res ↔ other ∈ members w.db room := by
  have htxn : c.txn = .one (.smembers (memberPattern room)) := by
    cases m with
    | enter =>
      cases c with
      | addRoomUserMembers user roomId hd =>
        have ht : roomId.text = room := by simp_all [Call.reads]
        rw [← ht]
        rfl
      | _ => cases hc
    | leave =>
      cases c with
      | delRoomUserMembers user roomId hd =>
        cases user with
        | none => cases hc
        | some user =>
          have ht : roomId.text = room := by simp_all [Call.reads]
          rw [← ht]
          rfl
      | _ => cases hc
  rcases h.db with ⟨order', he', hdb, hr⟩ | ⟨message, he', _⟩
  · rw [htxn] at hdb hr
    refine ⟨hdb, ?_⟩
    have hlist : ∃ xs, Store.smembers (memberPattern room) w.db = .array xs ∧
        xs = members w.db room := by
      rcases hw.member_type room with hnone | ⟨ms, hset⟩
      · exact ⟨[], by simp [Store.smembers, hnone], by simp [members, Store.membersOf, hnone]⟩
      · exact ⟨ms, by simp [Store.smembers, hset], by simp [members, Store.membersOf, hset]⟩
    obtain ⟨xs, hxs, rfl⟩ := hlist
    have hr : (Store.smembers (memberPattern room) w.db).inOrder order' = some r := hr
    rw [hxs] at hr
    obtain ⟨hlisted, hperm⟩ := Store.inOrder_array order' _ r hr
    exact ⟨order', hlisted, fun other => hperm.mem_iff⟩
  · rw [he] at he'
    cases he'
    cases hran

/-- A write that runs has changed the set, or found it changed. -/
theorem Executed.not_due {m : Move} {outcome : Outcome} (h : Executed w v e p c r) (hw : WF w)
    (he : e = .exec p outcome) (hran : outcome.ran = true) (hc : c.writes u room m = true) :
    ¬ m.due u room v.db := by
  obtain ⟨order, rfl⟩ : ∃ order, outcome = .done order := by
    cases outcome with
    | done order => exact ⟨order, rfl⟩
    | failed message => cases hran
  cases m with
  | enter =>
    obtain ⟨user, roomId, hd, rfl, rfl, rfl⟩ := writes_enter hc
    have hin := (h.added hw (h.member_reply hw he (Or.inl rfl))).2
    exact fun hout => hout hin
  | leave =>
    obtain ⟨user, roomId, hd, rfl, rfl, rfl⟩ := writes_leave hc
    apply h.removed
    intro message hfailed
    rw [he] at hfailed
    cases hfailed

end

/-! ### Two users who join -/

/- The `SMEMBERS` of a join of `a` succeeds and finds no join of `b` underway. -/
def ReadsApart (a b room : Str) (w : World) (e : Event) : Prop :=
  AtExec (fun outcome c => c.reads a room .enter = true →
    outcome.ran = true ∧ ∀ q, (w.procs q).underway .enter b room = 0) w e

/- The calls that take `u` out of the room. -/
def Call.removes (u room : Str) : Call → Bool
  | .delRoomUserRem user roomId _ => user.userId = u && roomId.text = room
  | .delRoomExec roomId _ => roomId.text = room
  | _ => false

def RemainsIn (u room : Str) (w : World) (e : Event) : Prop :=
  AtExec (fun _ c => c.removes u room = false) w e

/- The callback of a `SADD` of `u` has run, without an error. -/
def Succeeds (tr : List (World × Event)) (u room : Str) : Prop :=
  ∃ a ∈ tr, ∃ p c r, inputOf a.1 a.2 = some (p, .reply c r) ∧ c.writes u room .enter = true ∧
    r.err = none

/- Redis has run a `SADD` of `u`. -/
def Entered (tr : List (World × Event)) (u room : Str) : Prop :=
  ∃ a ∈ tr, ∃ p order c, a.2 = .exec p (.done order) ∧ (a.1.procs p).sent.head? = some c ∧
    c.writes u room .enter = true

/- The callback of a join of `a` has told `b`. -/
def Tells (tr : List (World × Event)) (a b room : Str) : Prop :=
  ∃ s ∈ tr, b ∈ s.1.announced .enter a room s.2

/- Not in the room, and no join of `u` past its check that the room exists. -/
structure Outside (w : World) (u room : Str) : Prop where
  absent : u ∉ members w.db room
  idle : ∀ q, ∀ c ∈ (w.procs q).calls,
    c.reads u room .enter = false ∧ c.writes u room .enter = false

/- With `a` in the room, a join of `b` lists `a` and then tells it. -/
structure Watches (a b room : Str) (met : Prop) (w : World) : Prop where
  listed : a ∈ members w.db room → ∀ p c r, (c, r) ∈ (w.procs p).answered →
    c.reads b room .enter = true → a ∈ othersIn b r ∨ met
  told : a ∈ members w.db room → ∀ p c, c ∈ (w.procs p).sent →
    c.writes b room .enter = true → met

section

variable {a b room : Str} {met : Prop} {w v : World} {e : Event} {p : Pid}

/-- A user enters with its own `SADD` only. -/
theorem Executed.entered {c : Call} {r : Store.Reply} (h : Executed w v e p c r) (hw : WF w)
    (hin : a ∈ members v.db room) : a ∈ members w.db room ∨ c.writes a room .enter = true := by
  rcases h.member_cases hw room a with hsame | ⟨user, roomId, hd, _, rfl, ht, hu, _⟩ |
    ⟨_, _, _, _, _, _, hout⟩ | ⟨_, _, _, _, _, _, hempty⟩
  · exact Or.inl (hsame.mp hin)
  · exact Or.inr (by simp [Call.writes, ht, hu])
  · exact absurd hin hout
  · rw [hempty] at hin
    cases hin

theorem Executed.remains {c : Call} {r : Store.Reply} (h : Executed w v e p c r) (hw : WF w)
    (hstay : RemainsIn a room w e) (hin : a ∈ members w.db room) : a ∈ members v.db room := by
  obtain ⟨_, _, hkept⟩ := h.atExec hstay
  rcases h.member_cases hw room a with hsame | ⟨_, _, _, _, _, _, _, _, hadded⟩ |
    ⟨user, roomId, hd, rfl, ht, hu, _⟩ | ⟨roomId, hd, _, rfl, ht, _⟩
  · exact hsame.mpr hin
  · exact hadded
  · simp [Call.removes, ht, hu] at hkept
  · simp [Call.removes, ht] at hkept

theorem Watches.executed {c : Call} {r : Store.Reply} (hwatch : Watches a b room met w) (hw : WF w)
    (hne : a ≠ b) (hread : ReadsApart b a room w e)
    (hapart : (∀ q, (w.procs q).underway .enter a room = 0) ∨
      ∀ q, (w.procs q).underway .enter b room = 0)
    (h : Executed w v e p c r) : Watches a b room met v := by
  -- while a join of `b` is underway none of `a` is, so no `SADD` of `a` can run
  have before : ∀ q, (w.procs q).underway .enter b room ≠ 0 → a ∈ members v.db room →
      a ∈ members w.db room := by
    intro q hq hin
    rcases h.entered hw hin with hin | hwr
    · exact hin
    · rcases hapart with ha | hb
      · exact absurd (ha p) (underway_write h.mem_sent hwr)
      · exact absurd (hb q) hq
  refine ⟨?_, ?_⟩
  · intro hin q c' r' hm hc'
    rcases h.mem_answered q c' r' hm with hold | ⟨rfl, rfl, rfl⟩
    · exact hwatch.listed (before q (underway_read hold hc') hin) q c' r' hold hc'
    · obtain ⟨outcome, he, hdone⟩ := h.atExec hread
      obtain ⟨hdb, res, rfl, hres⟩ := h.listed hw he (hdone hc').1 hc'
      rw [hdb] at hin
      refine Or.inl (List.mem_filter.mpr ⟨(hres a).mpr hin, ?_⟩)
      simpa using hne
  · intro hin q c' hm hc'
    have hold := h.sent_back hm
    exact hwatch.told (before q (underway_write hold hc') hin) q c' hold hc'

theorem Watches.handled {met' : Prop} {i : Input} {x : Proc} (hwatch : Watches a b room met w)
    (hw : WF w) (h : Handled w v e p i x) (hs : step w e = some v) (hmet : met → met')
    (htold : a ∈ w.announced .enter b room e → met') : Watches a b room met' v := by
  refine ⟨?_, ?_⟩
  · intro hin q c r hm hc
    rw [h.db] at hin
    rcases hwatch.listed hin q c r (h.answered_sub hw q _ hm) hc with hlisted | hm
    · exact Or.inl hlisted
    · exact Or.inr (hmet hm)
  · intro hin q c hm hc
    rw [h.db] at hin
    rcases h.sent_cases hw q c hm with hold | ⟨rfl, horigin⟩
    · exact hmet (hwatch.told hin q c hold hc)
    · obtain ⟨c₀, r, hi, hc₀⟩ := horigin.reads hc
      rcases hwatch.listed hin q c₀ r (h.reply_mem c₀ r hi) hc₀ with hlisted | hm
      · apply htold
        rw [h.announced hw hs hi hc₀]
        exact hlisted
      · exact hmet hm

theorem Watches.mono {met' : Prop} (hwatch : Watches a b room met w) (hmet : met → met') :
    Watches a b room met' w :=
  ⟨fun hin q c r hm hc => (hwatch.listed hin q c r hm hc).imp id hmet,
    fun hin q c hm hc => hmet (hwatch.told hin q c hm hc)⟩

theorem reads_ne {c : Call} {m : Move} (hne : a ≠ b) (hc : c.reads a room m = true) :
    c.reads b room m = false := by
  cases m with
  | enter =>
    cases c with
    | addRoomUserMembers user roomId hd => simp_all [Call.reads]
    | _ => rfl
  | leave =>
    cases c with
    | delRoomUserMembers user roomId hd =>
      cases user with
      | none => rfl
      | some user => simp_all [Call.reads]
    | _ => rfl

end

/- One of the two has been told of the other. -/
def Met (tr : List (World × Event)) (a b room : Str) : Prop := Tells tr a b room ∨ Tells tr b a room

theorem Met.mono {tr : List (World × Event)} {a b room : Str} (s : World × Event)
    (h : Met tr a b room) : Met (tr ++ [s]) a b room := by
  rcases h with ⟨t, ht, htold⟩ | ⟨t, ht, htold⟩
  · exact Or.inl ⟨t, List.mem_append_left _ ht, htold⟩
  · exact Or.inr ⟨t, List.mem_append_left _ ht, htold⟩

structure Meeting (a b room : Str) (tr : List (World × Event)) (w : World) : Prop where
  wf : WF w
  left : Watches a b room (Met tr a b room) w
  right : Watches b a room (Met tr a b room) w
  apart : (∀ q, (w.procs q).underway .enter a room = 0) ∨
    ∀ q, (w.procs q).underway .enter b room = 0
  both : a ∈ members w.db room → b ∈ members w.db room → Met tr a b room

section

variable {a b room : Str} {tr : List (World × Event)} {w v : World} {e : Event} {p : Pid}

theorem Executed.apart {c : Call} {r : Store.Reply} (h : Executed w v e p c r) (hne : a ≠ b)
    (hab : ReadsApart a b room w e) (hba : ReadsApart b a room w e)
    (hapart : (∀ q, (w.procs q).underway .enter a room = 0) ∨
      ∀ q, (w.procs q).underway .enter b room = 0) :
    (∀ q, (v.procs q).underway .enter a room = 0) ∨
      ∀ q, (v.procs q).underway .enter b room = 0 := by
  obtain ⟨_, _, ofA⟩ := h.atExec hab
  obtain ⟨_, _, ofB⟩ := h.atExec hba
  have still : ∀ u, c.reads u room .enter = false →
      (∀ q, (w.procs q).underway .enter u room = 0) →
      ∀ q, (v.procs q).underway .enter u room = 0 := by
    intro u hu hzero q
    have hle := h.underway_le hu q
    rw [hzero q] at hle
    omega
  by_cases ha : c.reads a room .enter = true
  · exact Or.inr (still b (reads_ne hne ha) (ofA ha).2)
  by_cases hb : c.reads b room .enter = true
  · exact Or.inl (still a (by simpa using ha) (ofB hb).2)
  rcases hapart with hzero | hzero
  · exact Or.inl (still a (by simpa using ha) hzero)
  · exact Or.inr (still b (by simpa using hb) hzero)

theorem Meeting.step (hinv : Meeting a b room tr w) (hne : a ≠ b)
    (hab : ReadsApart a b room w e) (hba : ReadsApart b a room w e)
    (hs : NodeServer.step w e = some v) : Meeting a b room (tr ++ [(w, e)]) v := by
  have hmono : Met tr a b room → Met (tr ++ [(w, e)]) a b room := Met.mono (w, e)
  have hlast : (w, e) ∈ tr ++ [(w, e)] := List.mem_append_right _ (List.mem_singleton_self _)
  rcases step_cases w v e hs with ⟨p, c, r, hx⟩ | ⟨p, i, x, hx⟩
  · refine ⟨hinv.wf.executed hx, ?_, ?_, hx.apart hne hab hba hinv.apart, ?_⟩
    · exact (hinv.left.executed hinv.wf hne hba hinv.apart hx).mono hmono
    · exact (hinv.right.executed hinv.wf (Ne.symm hne) hab (Or.comm.mp hinv.apart) hx).mono hmono
    · -- whoever comes second has its `SADD` running while the first is listed
      intro ha hb
      apply hmono
      rcases hx.entered hinv.wf ha with ha | hwa
      · rcases hx.entered hinv.wf hb with hb | hwb
        · exact hinv.both ha hb
        · exact hinv.left.told ha p c hx.mem_sent hwb
      · rcases hx.entered hinv.wf hb with hb | hwb
        · exact hinv.right.told hb p c hx.mem_sent hwa
        · obtain ⟨user, roomId, hd, rfl, hu, _⟩ := writes_enter hwa
          obtain ⟨_, _, _, hc, hv, _⟩ := writes_enter hwb
          cases hc
          exact absurd (hu.symm.trans hv) hne
  · refine ⟨hinv.wf.handled hx, ?_, ?_, ?_, ?_⟩
    · exact hinv.left.handled hinv.wf hx hs hmono fun ht => Or.inr ⟨_, hlast, ht⟩
    · exact hinv.right.handled hinv.wf hx hs hmono fun ht => Or.inl ⟨_, hlast, ht⟩
    · simpa only [hx.underway hinv.wf] using hinv.apart
    · intro ha hb
      rw [hx.db] at ha hb
      exact hmono (hinv.both ha hb)

theorem Outside.underway {u : Str} (h : Outside w u room) (q : Pid) :
    (w.procs q).underway .enter u room = 0 := by
  have hreads : ((w.procs q).answered.countP fun cr => cr.1.reads u room .enter) = 0 := by
    rw [List.countP_eq_zero]
    intro cr hcr
    simp [(h.idle q cr.1 (List.mem_append_left _ (List.mem_map_of_mem hcr))).1]
  have hwrites : (w.procs q).sent.countP (Call.writes u room .enter) = 0 := by
    rw [List.countP_eq_zero]
    intro c hc
    simp [(h.idle q c (List.mem_append_right _ hc)).2]
  simp only [Proc.underway, hreads, hwrites]

theorem Succeeds.entered {u : Str} {w₀ : World} (hw : WF w₀) (hout : Outside w₀ u room)
    (hpath : Run.Path NodeServer.step w₀ tr w) (h : Succeeds tr u room) : Entered tr u room := by
  have grows : ∀ {tr : List (World × Event)} {s : World × Event}, Entered tr u room →
      Entered (tr ++ [s]) u room := by
    rintro tr s ⟨t, ht, hrest⟩
    exact ⟨t, List.mem_append_left _ ht, hrest⟩
  have hinv := Run.Path.invariant (fun tr w => WF w ∧
    (∀ p c r, (c, r) ∈ (w.procs p).answered → c.writes u room .enter = true → r.err = none →
      Entered tr u room) ∧ (Succeeds tr u room → Entered tr u room)) ⟨hw, ?_, ?_⟩ ?_ hpath
  · exact hinv.2.2 h
  · intro p c r hm hc
    have hidle := (hout.idle p c (List.mem_append_left _ (List.mem_map_of_mem hm))).2
    rw [hc] at hidle
    cases hidle
  · rintro ⟨s, hs, _⟩
    cases hs
  · rintro tr w e v ⟨hw, hans, hsucc⟩ hs
    refine ⟨hw.step hs, ?_, ?_⟩
    · intro p c r hm hc hr
      rcases step_cases w v e hs with ⟨q, d, r', hx⟩ | ⟨q, i, x, hx⟩
      · rcases hx.mem_answered p c r hm with hold | ⟨rfl, rfl, rfl⟩
        · exact grows (hans p c r hold hc hr)
        · rcases hx.done_or_failed with ⟨order, he, _⟩ | ⟨_, err, rfl⟩
          · exact ⟨(w, e), List.mem_append_right _ (List.mem_singleton_self _), p, order, c, he,
              hx.sent_head, hc⟩
          · cases hr
      · exact grows (hans p c r (hx.answered_sub hw p _ hm) hc hr)
    · rintro ⟨s, hmem, p, c, r, hin, hc, hr⟩
      rcases List.mem_append.mp hmem with hold | hnew
      · exact grows (hsucc ⟨s, hold, p, c, r, hin, hc, hr⟩)
      · rw [List.mem_singleton.mp hnew] at hin
        rcases step_cases w v e hs with ⟨q, d, r', hx⟩ | ⟨q, i, x, hx⟩
        · obtain ⟨_, he, _⟩ := hx.atExec (fun _ _ _ _ _ => trivial)
          have hin : inputOf w e = some (p, .reply c r) := hin
          rw [he] at hin
          cases hin
        · have hi : some (q, i) = some (p, .reply c r) := hx.input.symm.trans hin
          cases hi
          exact grows (hans p c r (hx.reply_mem c r rfl) hc hr)

/-- Whoever has entered is still there. -/
theorem Entered.inside {u : Str} {w₀ : World} (hw : WF w₀) (hpath : Run.Path NodeServer.step w₀ tr w)
    (hstay : ∀ s ∈ tr, RemainsIn u room s.1 s.2) (h : Entered tr u room) :
    u ∈ members w.db room := by
  have hinv := Run.Path.invariant (fun tr w => WF w ∧ ((∀ s ∈ tr, RemainsIn u room s.1 s.2) →
    Entered tr u room → u ∈ members w.db room)) ⟨hw, ?_⟩ ?_ hpath
  · exact hinv.2 hstay h
  · rintro _ ⟨s, hs, _⟩
    cases hs
  · rintro tr w e v ⟨hw, hin⟩ hs
    refine ⟨hw.step hs, ?_⟩
    rintro hstay ⟨s, hmem, p, order, c, he, hhead, hc⟩
    have hlast := hstay (w, e) (List.mem_append_right _ (List.mem_singleton_self _))
    have hbefore : Entered tr u room → u ∈ members w.db room :=
      hin fun t ht => hstay t (List.mem_append_left _ ht)
    rcases List.mem_append.mp hmem with hold | hnew
    · have hin := hbefore ⟨s, hold, p, order, c, he, hhead, hc⟩
      rcases step_cases w v e hs with ⟨q, d, r, hx⟩ | ⟨q, i, x, hx⟩
      · exact hx.remains hw hlast hin
      · rw [hx.db]
        exact hin
    · rw [List.mem_singleton.mp hnew] at he hhead
      have he : e = .exec p (.done order) := he
      subst he
      obtain ⟨d, r, hx⟩ := exec_cases w v p _ hs
      have hd : d = c := by
        rw [hx.sent_head] at hhead
        exact Option.some.inj hhead
      subst hd
      exact not_not.mp (hx.not_due hw rfl rfl hc)

end

theorem joins_meet (a b room : Str) {w₀ w : World} {tr : List (World × Event)} (hne : a ≠ b)
    (hreach : Reachable w₀) (ha : Outside w₀ a room) (hb : Outside w₀ b room)
    (hpath : Run.Path step w₀ tr w)
    (hstay : ∀ s ∈ tr, RemainsIn a room s.1 s.2 ∧ RemainsIn b room s.1 s.2)
    (hapart : ∀ s ∈ tr, ReadsApart a b room s.1 s.2 ∧ ReadsApart b a room s.1 s.2)
    (hja : Succeeds tr a room) (hjb : Succeeds tr b room) : Met tr a b room := by
  have hw : WF w₀ := WF.initial.reach hreach
  have hinv := Run.Path.invariant (fun tr w =>
    (∀ s ∈ tr, ReadsApart a b room s.1 s.2 ∧ ReadsApart b a room s.1 s.2) →
      Meeting a b room tr w) ?_ ?_ hpath
  · exact (hinv hapart).both
      ((hja.entered hw ha hpath).inside hw hpath fun s hs => (hstay s hs).1)
      ((hjb.entered hw hb hpath).inside hw hpath fun s hs => (hstay s hs).2)
  · intro _
    refine ⟨hw, ⟨?_, ?_⟩, ⟨?_, ?_⟩, Or.inl ha.underway, ?_⟩
    · exact fun hin => absurd hin ha.absent
    · exact fun hin => absurd hin ha.absent
    · exact fun hin => absurd hin hb.absent
    · exact fun hin => absurd hin hb.absent
    · exact fun hin => absurd hin ha.absent
  · intro tr w e v hinv hs hall
    have hlast := hall (w, e) (List.mem_append_right _ (List.mem_singleton_self _))
    exact (hinv fun s hs => hall s (List.mem_append_left _ hs)).step hne hlast.1 hlast.2 hs

/- A joins, then B does. -/
def joinInTurnTrace : List Event :=
  roomInOf 0 ['A'] 6 :: served 0 [roomPattern ['1']] ++ served 0 [] ++ served 0 [] ++
    roomInOf 1 ['B'] 7 :: served 1 [roomPattern ['1']] ++ served 1 [['u']] ++
    served 1 [uniquePattern ['u'] (socketIdOf ['A'])] ++ served 1 []

def readsApartTest (ps : List Pid) (a b room : Str) (s : World × Event) : Bool :=
  atExecTest (fun outcome c => !c.reads a room .enter ||
    (outcome.ran && ps.all fun q => (s.1.procs q).underway .enter b room = 0)) s.1 s.2

theorem readsApartTest_sound (ps : List Pid) (a b room : Str) (s : World × Event)
    (hidle : ∀ q, q ∉ ps → s.1.procs q = Proc.initial) (h : readsApartTest ps a b room s = true) :
    ReadsApart a b room s.1 s.2 := by
  refine atExecTest_sound ?_ h
  intro outcome c htest hc
  simp only [hc, Bool.not_true, Bool.false_or, Bool.and_eq_true, List.all_eq_true,
    decide_eq_true_eq] at htest
  refine ⟨htest.1, ?_⟩
  intro q
  by_cases hq : q ∈ ps
  · exact htest.2 q hq
  · rw [hidle q hq]
    rfl

def remainsTest (u room : Str) (s : World × Event) : Bool :=
  atExecTest (fun _ c => !c.removes u room) s.1 s.2

theorem remainsTest_sound (u room : Str) (s : World × Event) (h : remainsTest u room s = true) :
    RemainsIn u room s.1 s.2 :=
  atExecTest_sound (fun _ _ ht => by simpa using ht) h

def succeedsTest (u room : Str) (s : World × Event) : Bool :=
  match inputOf s.1 s.2 with
  | some (_, .reply c r) => c.writes u room .enter && r.err = none
  | _ => false

theorem Succeeds.ofTest {tr : List (World × Event)} {u room : Str}
    (h : tr.any (succeedsTest u room) = true) : Succeeds tr u room := by
  obtain ⟨s, hs, ht⟩ := List.any_eq_true.mp h
  refine ⟨s, hs, ?_⟩
  unfold succeedsTest at ht
  split at ht
  · next p c r hin =>
    simp only [Bool.and_eq_true, decide_eq_true_eq] at ht
    exact ⟨p, c, r, hin, ht⟩
  · cases ht

/- Two processes with nothing pending and the others untouched. -/
theorem Outside.ofTest {w : World} {u room : Str} (ps : List Pid)
    (hidle : ∀ q, q ∉ ps → w.procs q = Proc.initial)
    (hquiet : (ps.all fun q => (w.procs q).quiet) = true) (hout : u ∉ members w.db room) :
    Outside w u room := by
  refine ⟨hout, ?_⟩
  intro q c hc
  have hnone : (w.procs q).calls = [] := by
    by_cases hq : q ∈ ps
    · obtain ⟨hsent, hans, _⟩ := (quiet_iff _).mp (List.all_eq_true.mp hquiet q hq)
      simp [Proc.calls, hsent, hans]
    · rw [hidle q hq]
      rfl
  rw [hnone] at hc
  cases hc

/- Both users logged in, A on process 0 and B on process 1. -/
def twoUsers : World := Run.ends step World.initial twoUsersTrace

theorem twoUsers_runs : (Run.runs step World.initial twoUsersTrace).isSome = true := by
  decide +kernel

theorem twoUsers_idle (q : Pid) (hq : q ∉ [0, 1]) : twoUsers.procs q = Proc.initial :=
  untouched_ends [0, 1] twoUsersTrace (by decide) twoUsers_runs q hq

theorem twoUsers_reachable : Reachable twoUsers := Run.reach_ends twoUsersTrace twoUsers_runs

theorem joins_meet_in_turn :
    Met (Run.steps step twoUsers joinInTurnTrace) ['u'] ['v'] ['1'] := by
  -- the trace is evaluated once for everything that is read off it
  obtain ⟨hrun, hquiet, hu, hv, htests, hjoinU, hjoinV⟩ :
      (Run.runs step twoUsers joinInTurnTrace).isSome = true ∧
      (([0, 1] : List Pid).all fun q => (twoUsers.procs q).quiet) = true ∧
      ['u'] ∉ members twoUsers.db ['1'] ∧ ['v'] ∉ members twoUsers.db ['1'] ∧
      (Run.steps step twoUsers joinInTurnTrace).all (fun s =>
        (remainsTest ['u'] ['1'] s && remainsTest ['v'] ['1'] s) &&
          (readsApartTest [0, 1] ['u'] ['v'] ['1'] s &&
            readsApartTest [0, 1] ['v'] ['u'] ['1'] s)) = true ∧
      (Run.steps step twoUsers joinInTurnTrace).any (succeedsTest ['u'] ['1']) = true ∧
      (Run.steps step twoUsers joinInTurnTrace).any (succeedsTest ['v'] ['1']) = true := by
    decide +kernel
  simp only [List.all_eq_true, Bool.and_eq_true] at htests
  refine joins_meet ['u'] ['v'] ['1'] (by decide) twoUsers_reachable
    (Outside.ofTest [0, 1] twoUsers_idle hquiet hu) (Outside.ofTest [0, 1] twoUsers_idle hquiet hv)
    (Run.path_ends joinInTurnTrace hrun) ?_ ?_ (Succeeds.ofTest hjoinU) (Succeeds.ofTest hjoinV)
  · intro s hs
    exact ⟨remainsTest_sound _ _ s (htests s hs).1.1, remainsTest_sound _ _ s (htests s hs).1.2⟩
  · intro s hs
    have hidle := steps_untouched [0, 1] joinInTurnTrace twoUsers twoUsers_idle (by decide) s hs
    exact ⟨readsApartTest_sound _ _ _ _ s hidle (htests s hs).2.1,
      readsApartTest_sound _ _ _ _ s hidle (htests s hs).2.2⟩

/- Both list the members before either is added. -/
def joinTogetherTrace : List Event :=
  [roomInOf 0 ['A'] 6, roomInOf 1 ['B'] 7, .exec 0 (.done [roomPattern ['1']]),
    .exec 1 (.done [roomPattern ['1']]), .reply 0, .reply 1, .exec 0 (.done []), .exec 1 (.done []),
    .reply 0, .reply 1, .exec 0 (.done []), .exec 1 (.done []), .reply 0, .reply 1]

theorem joins_miss_each_other :
    ¬ ∀ (a b room : Str) (p q : Pid) (s t : Str) (w₀ w : World) (tr : List (World × Event)),
      a ≠ b → (∀ c ∈ a, c.isAlphanum = true) → (∀ c ∈ b, c.isAlphanum = true) → Reachable w₀ →
      LoggedInAs w₀ p s a → (w₀.procs p).ws s = some .opened →
      LoggedInAs w₀ q t b → (w₀.procs q).ws t = some .opened →
      Outside w₀ a room → Outside w₀ b room → Run.Path step w₀ tr w →
      (∀ s ∈ tr, RemainsIn a room s.1 s.2 ∧ RemainsIn b room s.1 s.2) →
      Succeeds tr a room → Succeeds tr b room → Met tr a b room := by
  intro hall
  obtain ⟨hrun, hlogU, hopenU, hlogV, hopenV, hquiet, hu, hv, hstay, hsilent, hjoinU, hjoinV⟩ :
      (Run.runs step twoUsers joinTogetherTrace).isSome = true ∧
      LoggedInAs twoUsers 0 (socketIdOf ['A']) ['u'] ∧
      (twoUsers.procs 0).ws (socketIdOf ['A']) = some .opened ∧
      LoggedInAs twoUsers 1 (socketIdOf ['B']) ['v'] ∧
      (twoUsers.procs 1).ws (socketIdOf ['B']) = some .opened ∧
      (([0, 1] : List Pid).all fun q => (twoUsers.procs q).quiet) = true ∧
      ['u'] ∉ members twoUsers.db ['1'] ∧ ['v'] ∉ members twoUsers.db ['1'] ∧
      (Run.steps step twoUsers joinTogetherTrace).all (fun s =>
        remainsTest ['u'] ['1'] s && remainsTest ['v'] ['1'] s) = true ∧
      (Run.steps step twoUsers joinTogetherTrace).all (fun s =>
        decide (s.1.notices s.2 = [])) = true ∧
      (Run.steps step twoUsers joinTogetherTrace).any (succeedsTest ['u'] ['1']) = true ∧
      (Run.steps step twoUsers joinTogetherTrace).any (succeedsTest ['v'] ['1']) = true := by
    decide +kernel
  simp only [List.all_eq_true, Bool.and_eq_true] at hstay
  have hmet := hall ['u'] ['v'] ['1'] 0 1 (socketIdOf ['A']) (socketIdOf ['B']) twoUsers _
    (Run.steps step twoUsers joinTogetherTrace) (by decide) (List.forall_mem_singleton.mpr rfl)
    (List.forall_mem_singleton.mpr rfl) twoUsers_reachable hlogU hopenU hlogV hopenV
    (Outside.ofTest [0, 1] twoUsers_idle hquiet hu) (Outside.ofTest [0, 1] twoUsers_idle hquiet hv)
    (Run.path_ends joinTogetherTrace hrun)
    (fun s hs => ⟨remainsTest_sound _ _ s (hstay s hs).1, remainsTest_sound _ _ s (hstay s hs).2⟩)
    (Succeeds.ofTest hjoinU) (Succeeds.ofTest hjoinV)
  have none : ∀ a b, ¬ Tells (Run.steps step twoUsers joinTogetherTrace) a b ['1'] := by
    rintro a b ⟨s, hs, htold⟩
    have hn : s.1.notices s.2 = [] := of_decide_eq_true (List.all_eq_true.mp hsilent s hs)
    simp [World.announced, hn] at htold
  rcases hmet with hmet | hmet
  · exact none _ _ hmet
  · exact none _ _ hmet

end NodeServer

import NodeServer.Proof.Rooms

/-! # Room ids

The `INCR` of `addRoom` hands out an id, and from then on one call holds it: the
reply that waits for its callback, then the `HMSET`. An id nobody holds is
never written again. -/

namespace NodeServer

open DBModelKeys

/- The id a call of `addRoom` that is still to be executed holds. -/
def Call.heldId : Call → Option ℕ
  | .addRoomSet n _ => some n
  | _ => none

/- The id an executed call of `addRoom` holds. -/
def heldId : Call × Store.Reply → Option ℕ
  | (.addRoomIncr _ _, .int n) => some (parseInt n)
  | (.addRoomSet n _, _) => some n
  | _ => none

def Proc.heldIds (x : Proc) : List ℕ :=
  x.answered.filterMap NodeServer.heldId ++ x.sent.filterMap Call.heldId

/- The process has been given the id and is still to write its room. -/
def Proc.Creating (x : Proc) (n : ℕ) : Prop :=
  (∃ user hd res, (.addRoomIncr user hd, .int res) ∈ x.answered ∧ parseInt res = n) ∨
  ∃ hd, .addRoomSet n hd ∈ x.sent

/- The id has been given out and nobody is going to write its room. -/
def Settled (w : World) (n : ℕ) : Prop :=
  1 ≤ n ∧ n ≤ maxId w.db ∧ ∀ p, ¬ (w.procs p).Creating n

structure Issued (w : World) : Prop where
  bound : ∀ p, ∀ n ∈ (w.procs p).heldIds, 1 ≤ n ∧ n ≤ maxId w.db
  nodup : ∀ p, (w.procs p).heldIds.Nodup
  apart : ∀ p q, p ≠ q → ∀ n ∈ (w.procs p).heldIds, n ∉ (w.procs q).heldIds
  replies : ∀ p user hd r, (.addRoomIncr user hd, r) ∈ (w.procs p).answered →
    (∃ n, r = .int n) ∨ ∃ err, r = .error err
  rooms : ∀ n, w.db.get (roomPattern (natText n)) ≠ none → Settled w n

theorem heldId_executed (c : Call) (r : Store.Reply)
    (h : ∀ user hd, c = .addRoomIncr user hd → ∃ err, r = .error err) :
    heldId (c, r) = c.heldId := by
  cases c with
  | addRoomIncr user hd =>
    obtain ⟨err, rfl⟩ := h user hd rfl
    rfl
  | _ => rfl

theorem Proc.Creating.held {x : Proc} {n : ℕ} (h : x.Creating n) : n ∈ x.heldIds := by
  rcases h with ⟨user, hd, res, hm, hn⟩ | ⟨hd, hm⟩
  · exact List.mem_append_left _ (List.mem_filterMap.mpr ⟨_, hm, by rw [← hn]; rfl⟩)
  · exact List.mem_append_right _ (List.mem_filterMap.mpr ⟨_, hm, rfl⟩)

/-! ### An executed call -/

section

variable {w v : World} {e : Event} {p : Pid} {c : Call} {r : Store.Reply}

theorem Executed.heldIds_eq (h : Executed w v e p c r) :
    (w.procs p).heldIds = (w.procs p).answered.filterMap heldId ++
      (c.heldId.toList ++ (v.procs p).sent.filterMap Call.heldId) ∧
    (v.procs p).heldIds = (w.procs p).answered.filterMap heldId ++
      ((heldId (c, r)).toList ++ (v.procs p).sent.filterMap Call.heldId) := by
  refine ⟨?_, ?_⟩
  · rw [Proc.heldIds, h.sent]
    cases hc : c.heldId with
    | none => rw [List.filterMap_cons_none hc, Option.toList_none, List.nil_append]
    | some n => rw [List.filterMap_cons_some hc, Option.toList_some, List.singleton_append]
  · rw [Proc.heldIds, h.answered, List.filterMap_append, List.append_assoc]
    congr 2

theorem Executed.heldIds_cases (h : Executed w v e p c r) (hw : WF w) (hlt : maxId v.db < 2 ^ 53) :
    (maxId v.db = maxId w.db ∧ ∀ q, (v.procs q).heldIds = (w.procs q).heldIds) ∨
    (maxId v.db = maxId w.db + 1 ∧ (∀ q, q ≠ p → (v.procs q).heldIds = (w.procs q).heldIds) ∧
      (v.procs p).heldIds.Perm ((maxId w.db + 1) :: (w.procs p).heldIds)) := by
  have hother : ∀ q, q ≠ p → (v.procs q).heldIds = (w.procs q).heldIds := by
    intro q hq
    rw [h.others q hq]
  obtain ⟨hold, hnew⟩ := h.heldIds_eq
  rcases h.maxId_cases hw with ⟨hmax, herr⟩ | ⟨user, hd, order, rfl, _, rfl, hmax⟩
  · refine Or.inl ⟨hmax, ?_⟩
    intro q
    by_cases hq : q = p
    · rw [hq, hold, hnew, heldId_executed c r herr]
    · exact hother q hq
  · refine Or.inr ⟨hmax, hother, ?_⟩
    have hid : heldId (.addRoomIncr user hd, .int (maxId w.db + 1)) = some (maxId w.db + 1) := by
      simp only [heldId]
      rw [parseInt_exact _ (by omega)]
    rw [hold, hnew, hid]
    exact List.perm_middle

theorem Executed.maxId_le (h : Executed w v e p c r) (hw : WF w) : maxId w.db ≤ maxId v.db := by
  rcases h.maxId_cases hw with ⟨hmax, _⟩ | ⟨_, _, _, _, _, _, hmax⟩
  · omega
  · omega

/-- Who is to write a room after the step was to write it before, or has just
been given its id. -/
theorem Executed.creating (h : Executed w v e p c r) (hw : WF w) (hlt : maxId v.db < 2 ^ 53)
    (q : Pid) (n : ℕ) (hc : (v.procs q).Creating n) :
    (w.procs q).Creating n ∨ n = maxId w.db + 1 := by
  rcases hc with ⟨user, hd, res, hm, hn⟩ | ⟨hd, hm⟩
  · rcases h.mem_answered q _ _ hm with hm | ⟨rfl, rfl, rfl⟩
    · exact Or.inl (Or.inl ⟨user, hd, res, hm, hn⟩)
    · rcases h.maxId_cases hw with ⟨_, herr⟩ | ⟨_, _, _, _, _, hr, hmax⟩
      · obtain ⟨err, he⟩ := herr user hd rfl
        cases he
      · cases hr
        rw [parseInt_exact _ (by omega)] at hn
        exact Or.inr hn.symm
  · exact Or.inl (Or.inr ⟨hd, h.sent_back hm⟩)

theorem Executed.written (h : Executed w v e p c r) (hw : WF w) (hi : Issued w)
    (hlt : maxId v.db < 2 ^ 53) (n : ℕ) (hd : Handler) (hc : c = .addRoomSet n hd) : Settled v n := by
  subst hc
  have hheld : n ∈ (w.procs p).heldIds := by
    refine List.mem_append_right _ (List.mem_filterMap.mpr ⟨.addRoomSet n hd, ?_, rfl⟩)
    rw [h.sent]
    exact List.mem_cons_self ..
  obtain ⟨hlo, hhi⟩ := hi.bound p n hheld
  refine ⟨hlo, Nat.le_trans hhi (h.maxId_le hw), ?_⟩
  intro q hq
  by_cases hqp : q = p
  · subst hqp
    -- the ids before and after the head of the queue are different ones
    have hnodup := hi.nodup q
    rw [h.heldIds_eq.1] at hnodup
    rw [Call.heldId, Option.toList_some, List.singleton_append, List.nodup_middle,
      List.nodup_cons] at hnodup
    rcases hq with ⟨user, hd', res, hm, hn⟩ | ⟨hd', hm⟩
    · rcases h.mem_answered q _ _ hm with hm | ⟨_, heq, _⟩
      · exact hnodup.1 (List.mem_append_left _ (List.mem_filterMap.mpr ⟨_, hm, by rw [← hn]; rfl⟩))
      · cases heq
    · exact hnodup.1 (List.mem_append_right _ (List.mem_filterMap.mpr ⟨_, hm, rfl⟩))
  · rcases h.creating hw hlt q n hq with hq | hn
    · exact hi.apart p q (Ne.symm hqp) n hheld hq.held
    · omega

theorem Settled.executed (hw : WF w) {n : ℕ} (hs : Settled w n) (h : Executed w v e p c r)
    (hlt : maxId v.db < 2 ^ 53) : Settled v n := by
  refine ⟨hs.1, Nat.le_trans hs.2.1 (h.maxId_le hw), ?_⟩
  intro q hq
  have hle := hs.2.1
  rcases h.creating hw hlt q n hq with hq | hn
  · exact hs.2.2 q hq
  · omega

theorem Issued.executed (hw : WF w) (hi : Issued w) (h : Executed w v e p c r)
    (hlt : maxId v.db < 2 ^ 53) : Issued v := by
  have hle := h.maxId_le hw
  -- the ids held are those held before, and the new value of the counter
  have hcases : ∀ q, ∀ n ∈ (v.procs q).heldIds, n ∈ (w.procs q).heldIds ∨
      (q = p ∧ n = maxId w.db + 1 ∧ n ≤ maxId v.db) := by
    intro q n hn
    rcases h.heldIds_cases hw hlt with ⟨_, hsame⟩ | ⟨hmax, hother, hp⟩
    · exact Or.inl (by rwa [hsame q] at hn)
    · by_cases hq : q = p
      · rw [hq, hp.mem_iff] at hn
        rcases List.mem_cons.mp hn with hn | hn
        · exact Or.inr ⟨hq, hn, by omega⟩
        · exact Or.inl (by rwa [hq])
      · exact Or.inl (by rwa [hother q hq] at hn)
  have hold : ∀ q, ∀ n ∈ (w.procs q).heldIds, n ≠ maxId w.db + 1 := by
    intro q n hn
    have hb := (hi.bound q n hn).2
    omega
  refine ⟨?_, ?_, ?_, ?_, ?_⟩
  · intro q n hn
    rcases hcases q n hn with hn | ⟨_, hn, hb⟩
    · exact ⟨(hi.bound q n hn).1, Nat.le_trans (hi.bound q n hn).2 hle⟩
    · omega
  · intro q
    rcases h.heldIds_cases hw hlt with ⟨_, hsame⟩ | ⟨_, hother, hp⟩
    · rw [hsame q]
      exact hi.nodup q
    · by_cases hq : q = p
      · rw [hq, hp.nodup_iff, List.nodup_cons]
        exact ⟨fun hm => hold p _ hm rfl, hi.nodup p⟩
      · rw [hother q hq]
        exact hi.nodup q
  · intro q t hqt n hq ht
    rcases hcases q n hq with hq | ⟨hqp, hn, _⟩
    · rcases hcases t n ht with ht | ⟨_, hn, _⟩
      · exact hi.apart q t hqt n hq ht
      · exact hold q n hq hn
    · rcases hcases t n ht with ht | ⟨htp, _, _⟩
      · exact hold t n ht hn
      · exact hqt (hqp.trans htp.symm)
  · intro q user hd r' hm
    rcases h.mem_answered q _ _ hm with hm | ⟨_, rfl, rfl⟩
    · exact hi.replies q user hd r' hm
    · rcases h.maxId_cases hw with ⟨_, herr⟩ | ⟨_, _, _, _, _, hr, _⟩
      · exact Or.inr (herr user hd rfl)
      · exact Or.inl ⟨_, hr⟩
  · intro n hn
    rcases h.room_cases hw (natText n) with hsame | ⟨m, hd, hc, ht, _⟩ | ⟨_, _, _, _, _, _, hnone⟩
    · rw [hsame] at hn
      exact (hi.rooms n hn).executed hw h hlt
    · rw [natText_injective ht]
      exact h.written hw hi hlt m hd hc
    · exact absurd hnone hn

end

/-! ### A handled input -/

section

variable {w v : World} {e : Event} {p : Pid} {i : Input} {x : Proc}

theorem Handled.creating (h : Handled w v e p i x) (hw : WF w) (q : Pid) (n : ℕ) (hn : 1 ≤ n)
    (hc : (v.procs q).Creating n) : (w.procs q).Creating n := by
  rcases hc with ⟨user, hd, res, hm, hres⟩ | ⟨hd, hm⟩
  · exact Or.inl ⟨user, hd, res, h.answered_sub hw q _ hm, hres⟩
  · rcases h.sent_cases hw q _ hm with hm | ⟨rfl, ho⟩
    · exact Or.inr ⟨hd, hm⟩
    · cases ho with
      | addRoomSet user _ res replied =>
        exact Or.inl ⟨some user, hd, res, h.reply_mem _ _ replied, rfl⟩
      | addRoomNull user _ r replied null => omega

theorem Settled.handled (hw : WF w) {n : ℕ} (hs : Settled w n) (h : Handled w v e p i x) :
    Settled v n := by
  refine ⟨hs.1, by rw [h.db]; exact hs.2.1, ?_⟩
  intro q hq
  exact hs.2.2 q (h.creating hw q n hs.1 hq)

/- The id a successful `addRoom` returns with an event. -/
def World.returns (w : World) : Event → Option ℕ
  | .reply p =>
    match (w.procs p).answered with
    | (.addRoomSet _ _, .error _) :: _ => none
    | (.addRoomSet n _, _) :: _ => some n
    | _ => none
  | _ => none

theorem Handled.returned (h : Handled w v e p i x) (n : ℕ) (hn : w.returns e = some n) :
    ∃ hd r, i = .reply (.addRoomSet n hd) r := by
  have hin := h.input
  cases e with
  | reply q =>
    simp only [World.returns] at hn
    simp only [inputOf] at hin
    split at hn
    · cases hn
    · next m hd r rest _ hans =>
      cases hn
      rw [hans] at hin
      cases hin
      exact ⟨hd, r, rfl⟩
    · cases hn
  | _ => cases hn

/-- An input ends the operations of `ended` and hands the other ids on. -/
theorem Handled.heldIds_perm (h : Handled w v e p i x) (hw : WF w) (hi : Issued w) :
    ∃ ended, (w.procs p).heldIds.Perm (ended ++ (v.procs p).heldIds) ∧
      ∀ n, w.returns e = some n → ended = [n] := by
  have hbefore : (w.procs p).heldIds = i.replied.filterMap heldId ++
      (x.answered.filterMap heldId ++ (w.procs p).sent.filterMap Call.heldId) := by
    rw [Proc.heldIds, h.answered, List.filterMap_append, List.append_assoc]
  by_cases hincr : ∃ user hd res, i = .reply (.addRoomIncr (some user) hd) (.int res)
  · obtain ⟨user, hd, res, rfl⟩ := hincr
    have hafter : (v.procs p).heldIds = x.answered.filterMap heldId ++
        ((w.procs p).sent.filterMap Call.heldId ++ [parseInt res]) := by
      rw [h.after, ← h.sent]
      simp [react, Proc.onReply, Proc.onAddRoomIncr, Proc.issue, Proc.heldIds, Call.heldId]
    refine ⟨[], ?_, ?_⟩
    · rw [hbefore, hafter, List.nil_append, ← List.append_assoc (x.answered.filterMap heldId)]
      exact (List.perm_append_singleton (parseInt res) _).symm
    · intro n hn
      obtain ⟨_, _, heq⟩ := h.returned n hn
      cases heq
  · refine ⟨i.replied.filterMap heldId, ?_, ?_⟩
    · obtain ⟨news, outs, heff⟩ := h.effect hw
      have hnews : news.filterMap Call.heldId = [] := by
        rw [List.filterMap_eq_nil_iff]
        intro c hc
        have ho := heff.origin c hc
        cases ho with
        | addRoomSet user hd res replied => exact absurd ⟨user, hd, res, replied⟩ hincr
        | addRoomNull user hd r replied null =>
          rcases hi.replies p _ hd r (h.reply_mem _ _ replied) with ⟨n, hr⟩ | ⟨err, hr⟩
          · exact absurd hr (null.1 n)
          · exact absurd hr (null.2 err)
        | _ => rfl
      have hafter : (v.procs p).heldIds = x.answered.filterMap heldId ++
          (w.procs p).sent.filterMap Call.heldId := by
        rw [Proc.heldIds, heff.answered, heff.sent, h.sent, List.filterMap_append, hnews,
          List.append_nil]
      rw [hbefore, hafter]
    · intro n hn
      obtain ⟨hd, r, rfl⟩ := h.returned n hn
      rfl

theorem Issued.handled (hw : WF w) (hi : Issued w) (h : Handled w v e p i x) : Issued v := by
  obtain ⟨ended, hperm, _⟩ := h.heldIds_perm hw hi
  have hother : ∀ q, q ≠ p → (v.procs q).heldIds = (w.procs q).heldIds := by
    intro q hq
    obtain ⟨_, _, hsent, hans⟩ := h.other_conns q hq
    simp only [Proc.heldIds, hsent, hans]
  have hsub : ∀ q, ∀ n ∈ (v.procs q).heldIds, n ∈ (w.procs q).heldIds := by
    intro q n hn
    by_cases hq : q = p
    · rw [hq] at hn ⊢
      exact hperm.mem_iff.mpr (List.mem_append_right _ hn)
    · rwa [hother q hq] at hn
  refine ⟨?_, ?_, ?_, ?_, ?_⟩
  · intro q n hn
    rw [h.db]
    exact hi.bound q n (hsub q n hn)
  · intro q
    by_cases hq : q = p
    · rw [hq]
      exact (List.nodup_append.mp (hperm.nodup_iff.mp (hi.nodup p))).2.1
    · rw [hother q hq]
      exact hi.nodup q
  · intro q t hqt n hq ht
    exact hi.apart q t hqt n (hsub q n hq) (hsub t n ht)
  · intro q user hd r hm
    exact hi.replies q user hd r (h.answered_sub hw q _ hm)
  · intro n hn
    rw [h.db] at hn
    exact (hi.rooms n hn).handled hw h

end

/-! ### Whole runs -/

/- The event executes the `INCR` of an `addRoom`. -/
def World.creates (w : World) : Event → Bool
  | .exec p (.done _) =>
    match (w.procs p).sent with
    | .addRoomIncr _ _ :: _ => true
    | _ => false
  | _ => false

def creations (tr : List (World × Event)) : ℕ := tr.countP fun a => a.1.creates a.2

/- The ids the successful `addRoom` calls of a run returned. -/
def returnedIds (tr : List (World × Event)) : List ℕ := tr.filterMap fun a => a.1.returns a.2

theorem returnedIds_snoc (tr : List (World × Event)) (w : World) (e : Event) :
    returnedIds (tr ++ [(w, e)]) = returnedIds tr ++ (w.returns e).toList := by
  rw [returnedIds, List.filterMap_append]
  rfl

structure RoomIdsFresh (tr : List (World × Event)) (w : World) : Prop where
  distinct : (returnedIds tr).Nodup
  keys : ∀ k value, w.db.get k = some value → Glob.stringmatch roomListPattern k = true →
    ∃ n, 1 ≤ n ∧ n ≤ maxId w.db ∧ k = roomPattern (natText n) ∧ value = .hash [(RoomIdKey, natText n)]
  gone : ∀ n, tr.Pairwise fun a b => a.1.db.get (roomPattern (natText n)) ≠ none →
    b.1.db.get (roomPattern (natText n)) = none → w.db.get (roomPattern (natText n)) = none

/- What a run so far has left behind. -/
structure Ledger (tr : List (World × Event)) (w : World) : Prop where
  issued : Issued w
  distinct : (returnedIds tr).Nodup
  given : ∀ n ∈ returnedIds tr, n ≤ maxId w.db ∧ ∀ p, n ∉ (w.procs p).heldIds
  settled : ∀ a ∈ tr, ∀ n, a.1.db.get (roomPattern (natText n)) ≠ none → Settled w n
  gone : ∀ n, tr.Pairwise fun a b => a.1.db.get (roomPattern (natText n)) ≠ none →
    b.1.db.get (roomPattern (natText n)) = none → w.db.get (roomPattern (natText n)) = none

theorem Settled.step {w v : World} {e : Event} {n : ℕ} (hw : WF w) (hs : Settled w n)
    (h : NodeServer.step w e = some v) (hlt : maxId v.db < 2 ^ 53) :
    Settled v n ∧ (w.db.get (roomPattern (natText n)) = none →
      v.db.get (roomPattern (natText n)) = none) := by
  rcases step_cases w v e h with ⟨p, c, r, hx⟩ | ⟨p, i, x, hx⟩
  · refine ⟨hs.executed hw hx hlt, ?_⟩
    intro hnone
    rcases hx.room_cases hw (natText n) with hsame | ⟨m, hd, rfl, ht, _⟩ | ⟨_, _, _, _, _, _, hgone⟩
    · rw [hsame, hnone]
    · rw [natText_injective ht] at hs
      refine absurd (Or.inr ⟨hd, ?_⟩) (hs.2.2 p)
      rw [hx.sent]
      exact List.mem_cons_self ..
    · exact hgone
  · refine ⟨hs.handled hw hx, ?_⟩
    intro hnone
    rw [hx.db, hnone]

theorem Issued.step {w v : World} {e : Event} (hw : WF w) (hi : Issued w)
    (h : NodeServer.step w e = some v) (hlt : maxId v.db < 2 ^ 53) : Issued v := by
  rcases step_cases w v e h with ⟨p, c, r, hx⟩ | ⟨p, i, x, hx⟩
  · exact hi.executed hw hx hlt
  · exact hi.handled hw hx

theorem maxId_step {w v : World} {e : Event} (hw : WF w) (h : step w e = some v) :
    maxId v.db ≤ maxId w.db + (if w.creates e then 1 else 0) ∧ maxId w.db ≤ maxId v.db := by
  rcases step_cases w v e h with ⟨p, c, r, hx⟩ | ⟨p, i, x, hx⟩
  · refine ⟨?_, hx.maxId_le hw⟩
    rcases hx.maxId_cases hw with ⟨hmax, _⟩ | ⟨user, hd, order, rfl, rfl, _, hmax⟩
    · omega
    · have hc : w.creates (.exec p (.done order)) = true := by simp only [World.creates, hx.sent]
      rw [if_pos hc]
      omega
  · rw [hx.db]
    omega

theorem Ledger.returned {tr : List (World × Event)} {w v : World} {e : Event} (hw : WF w)
    (hl : Ledger tr w) (h : step w e = some v) (hlt : maxId v.db < 2 ^ 53) :
    (returnedIds (tr ++ [(w, e)])).Nodup ∧
      ∀ n ∈ returnedIds (tr ++ [(w, e)]), n ≤ maxId v.db ∧ ∀ p, n ∉ (v.procs p).heldIds := by
  rcases step_cases w v e h with ⟨p, c, r, hx⟩ | ⟨p, i, x, hx⟩
  · have hnone : w.returns e = none := by
      rcases hx.db with ⟨order, he, _⟩ | ⟨message, he, _⟩
      · rw [he]
        rfl
      · rw [he]
        rfl
    rw [returnedIds_snoc, hnone, Option.toList_none, List.append_nil]
    refine ⟨hl.distinct, ?_⟩
    intro n hn
    obtain ⟨hle, hfree⟩ := hl.given n hn
    refine ⟨Nat.le_trans hle (hx.maxId_le hw), ?_⟩
    intro q hq
    rcases hx.heldIds_cases hw hlt with ⟨_, hids⟩ | ⟨_, hother, hp⟩
    · rw [hids q] at hq
      exact hfree q hq
    · by_cases hqp : q = p
      · rw [hqp, hp.mem_iff] at hq
        rcases List.mem_cons.mp hq with hq | hq
        · omega
        · exact hfree p hq
      · rw [hother q hqp] at hq
        exact hfree q hq
  · obtain ⟨ended, hperm, hended⟩ := hx.heldIds_perm hw hl.issued
    have hsub : ∀ q, ∀ n ∈ (v.procs q).heldIds, n ∈ (w.procs q).heldIds := by
      intro q n hn
      by_cases hq : q = p
      · rw [hq] at hn ⊢
        exact hperm.mem_iff.mpr (List.mem_append_right _ hn)
      · obtain ⟨_, _, hsent, hans⟩ := hx.other_conns q hq
        simpa only [Proc.heldIds, hsent, hans] using hn
    rw [hx.db]
    have hkeep : ∀ n ∈ returnedIds tr, n ≤ maxId w.db ∧ ∀ q, n ∉ (v.procs q).heldIds := by
      intro n hn
      exact ⟨(hl.given n hn).1, fun q hq => (hl.given n hn).2 q (hsub q n hq)⟩
    cases hret : w.returns e with
    | none =>
      rw [returnedIds_snoc, hret, Option.toList_none, List.append_nil]
      exact ⟨hl.distinct, hkeep⟩
    | some n =>
      rw [hended n hret, List.singleton_append] at hperm
      have hheld : n ∈ (w.procs p).heldIds := hperm.mem_iff.mpr (List.mem_cons_self ..)
      have hfree : n ∉ (v.procs p).heldIds :=
        (List.nodup_cons.mp (hperm.nodup_iff.mp (hl.issued.nodup p))).1
      rw [returnedIds_snoc, hret, Option.toList_some]
      refine ⟨?_, ?_⟩
      · refine List.nodup_append.mpr ⟨hl.distinct, List.nodup_singleton n, ?_⟩
        intro a ha b hb
        rw [List.mem_singleton.mp hb]
        rintro rfl
        exact (hl.given a ha).2 p hheld
      · intro m hm
        rcases List.mem_append.mp hm with hm | hm
        · exact hkeep m hm
        · rw [List.mem_singleton.mp hm]
          refine ⟨(hl.issued.bound p n hheld).2, ?_⟩
          intro q hq
          by_cases hqp : q = p
          · rw [hqp] at hq
            exact hfree hq
          · exact hl.issued.apart p q (Ne.symm hqp) n hheld (hsub q n hq)

theorem Ledger.step {tr : List (World × Event)} {w v : World} {e : Event} (hw : WF w)
    (hl : Ledger tr w) (h : NodeServer.step w e = some v) (hlt : maxId v.db < 2 ^ 53) :
    Ledger (tr ++ [(w, e)]) v := by
  obtain ⟨hdistinct, hgiven⟩ := hl.returned hw h hlt
  have hsettled : ∀ a ∈ tr ++ [(w, e)], ∀ n, a.1.db.get (roomPattern (natText n)) ≠ none →
      Settled w n := by
    intro a ha n hn
    rcases List.mem_append.mp ha with ha | ha
    · exact hl.settled a ha n hn
    · rw [List.mem_singleton.mp ha] at hn
      exact hl.issued.rooms n hn
  refine ⟨hl.issued.step hw h hlt, hdistinct, hgiven, ?_, ?_⟩
  · intro a ha n hn
    exact ((hsettled a ha n hn).step hw h hlt).1
  · intro n
    refine List.pairwise_append.mpr ⟨?_, List.pairwise_singleton _ _, ?_⟩
    · refine (hl.gone n).imp_of_mem ?_
      intro a b ha _ hab hpa hpb
      have hs := hsettled a (List.mem_append_left _ ha) n hpa
      exact (hs.step hw h hlt).2 (hab hpa hpb)
    · intro a ha b hb hpa hpb
      have hs := hsettled a (List.mem_append_left _ ha) n hpa
      rw [List.mem_singleton.mp hb] at hpb
      exact (hs.step hw h hlt).2 hpb

theorem ledger_path {tr : List (World × Event)} {w : World} (h : Run.Path step World.initial tr w) :
    WF w ∧ maxId w.db ≤ creations tr ∧ (creations tr < 2 ^ 53 → Ledger tr w) := by
  refine Run.Path.invariant (fun tr w => WF w ∧ maxId w.db ≤ creations tr ∧
    (creations tr < 2 ^ 53 → Ledger tr w)) ⟨WF.initial, Nat.le_refl 0, fun _ => ?_⟩ ?_ h
  · refine ⟨⟨?_, ?_, ?_, ?_, ?_⟩, List.nodup_nil, ?_, ?_, fun n => List.Pairwise.nil⟩
    · intro p n hn
      cases hn
    · intro p
      exact List.nodup_nil
    · intro p q _ n hn
      cases hn
    · intro p user hd r hm
      cases hm
    · intro n hn
      exact absurd rfl hn
    · intro n hn
      cases hn
    · intro a ha
      cases ha
  · intro tr w e v ⟨hw, hmax, hl⟩ hs
    obtain ⟨hup, hmono⟩ := maxId_step hw hs
    have hcount : creations (tr ++ [(w, e)]) = creations tr + (if w.creates e then 1 else 0) := by
      simp only [creations, List.countP_append, List.countP_singleton]
    refine ⟨hw.step hs, by omega, ?_⟩
    intro hfew
    exact (hl (by omega)).step hw hs (by omega)

/-- Room ids are handed out once, their keys hold nothing else, and a room that
was closed stays closed. -/
theorem room_ids_fresh (tr : List (World × Event)) (w : World)
    (hrun : Run.Path step World.initial tr w) (hfew : creations tr < 2 ^ 53) :
    RoomIdsFresh tr w := by
  obtain ⟨hw, _, hledger⟩ := ledger_path hrun
  have hl := hledger hfew
  refine ⟨hl.distinct, ?_, hl.gone⟩
  intro k value hk hmatch
  obtain ⟨t, rfl⟩ := (roomListPattern_iff k).mp hmatch
  have hform : RoomIdKey ++ ['-'] ++ t = roomPattern t := by simp [roomPattern]
  rw [hform] at hk ⊢
  obtain ⟨n, rfl, rfl⟩ := entry_room w.own w.db hw.db hk
  obtain ⟨hlo, hhi, _⟩ := hl.issued.rooms n (by rw [hk]; exact Option.some_ne_none _)
  exact ⟨n, hlo, hhi, rfl, rfl⟩

/-! ### Two rooms, one of them closed -/

def closedRoomTrace : List Event :=
  [.connect 0 ['A'] 1, .message 0 (socketIdOf ['A']) (loginRequest ['u']) 2,
    .exec 0 (.done []), .reply 0, .exec 0 (.done []), .reply 0, .exec 0 (.done []), .reply 0,
    .message 0 (socketIdOf ['A']) (Route.roomCreate.request none .undefined) 3,
    .message 0 (socketIdOf ['A']) (Route.roomCreate.request none .undefined) 4,
    .exec 0 (.done []), .exec 0 (.done []), .reply 0, .reply 0,
    .exec 0 (.done []), .exec 0 (.done []), .reply 0, .reply 0,
    .message 0 (socketIdOf ['A']) (Route.roomClose.request none (.str ['1'])) 5,
    .exec 0 (.done [roomPattern ['1']]), .reply 0, .exec 0 (.done []), .reply 0]

theorem room_ids_fresh_closed :
    RoomIdsFresh (Run.steps step World.initial closedRoomTrace)
      (Run.ends step World.initial closedRoomTrace) :=
  room_ids_fresh _ _ (Run.path_ends closedRoomTrace (by decide +kernel)) (by decide +kernel)

end NodeServer

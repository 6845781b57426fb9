import NodeServer.Proof.Live

/-! # Rooms in Redis

What one executed call can change of the room counter, of the room keys and of
the member sets. -/

namespace NodeServer

open DBModelKeys

/- The value of `RoomMaxIdKey`; a missing counter reads as zero. -/
def maxId (db : Store.Db) : ℕ :=
  match db.get RoomMaxIdKey with
  | some (.int n) => n
  | _ => 0

/- The members of the room a text names. -/
def members (db : Store.Db) (room : Str) : List Str := Store.membersOf db (memberPattern room)

theorem incr_run (own : Pid → Str → Prop) (db : Store.Db)
    (hdb : ∀ k value, db.get k = some value → EntryOk own k value) :
    ((Store.incr RoomMaxIdKey db).2 = .int (maxId db + 1) ∧
      maxId (Store.incr RoomMaxIdKey db).1 = maxId db + 1) ∨
    (maxId (Store.incr RoomMaxIdKey db).1 = maxId db ∧
      ∃ err, (Store.incr RoomMaxIdKey db).2 = .error err) := by
  cases hmax : db.get RoomMaxIdKey with
  | none => exact Or.inl (by simp [Store.incr, maxId, hmax, Table.get_set])
  | some value =>
    obtain ⟨n, rfl⟩ := entry_maxId own db hdb hmax
    by_cases hn : n + 1 < 2 ^ 63
    · exact Or.inl (by simp only [Store.incr, maxId, hmax, hn, if_true, Table.get_set, and_self])
    · exact Or.inr (by simp only [Store.incr, maxId, hmax, hn, if_false, Store.overflowerr]; simp)

theorem WF.member_type {w : World} (hw : WF w) (room : Str) :
    w.db.get (memberPattern room) = none ∨ ∃ ms, w.db.get (memberPattern room) = some (.set ms) := by
  cases hv : w.db.get (memberPattern room) with
  | none => exact Or.inl rfl
  | some value =>
    obtain ⟨ms, rfl⟩ := entry_member w.own w.db hw.db hv
    exact Or.inr ⟨ms, rfl⟩

section

variable {w v : World} {e : Event} {p : Pid} {c : Call} {r : Store.Reply}

theorem Executed.done_or_failed (h : Executed w v e p c r) :
    (∃ order, e = .exec p (.done order) ∧ v.db = (c.txn.run w.db).1 ∧
      (c.txn.run w.db).2.inOrder order = some r) ∨ (v.db = w.db ∧ ∃ err, r = .error err) := by
  rcases h.db with hd | ⟨message, _, hdb, hr⟩
  · exact Or.inl hd
  · exact Or.inr ⟨hdb, message, hr⟩

theorem Executed.maxId_cases (h : Executed w v e p c r) (hw : WF w) :
    (maxId v.db = maxId w.db ∧ ∀ user hd, c = .addRoomIncr user hd → ∃ err, r = .error err) ∨
    (∃ user hd order, c = .addRoomIncr user hd ∧ e = .exec p (.done order) ∧
      r = .int (maxId w.db + 1) ∧ maxId v.db = maxId w.db + 1) := by
  rcases h.done_or_failed with ⟨order, he, hdb, hr⟩ | ⟨hdb, hr⟩
  · by_cases hc : ∃ user hd, c = .addRoomIncr user hd
    · obtain ⟨user, hd, rfl⟩ := hc
      have hdb : v.db = (Store.incr RoomMaxIdKey w.db).1 := hdb
      have hr : (Store.incr RoomMaxIdKey w.db).2.inOrder order = some r := hr
      rcases incr_run w.own w.db hw.db with ⟨hint, hmax⟩ | ⟨hmax, err, herr⟩
      · rw [hint] at hr
        exact Or.inr ⟨user, hd, order, rfl, he, (Option.some.inj hr).symm, by rw [hdb, hmax]⟩
      · rw [herr] at hr
        exact Or.inl ⟨by rw [hdb, hmax], fun _ _ _ => ⟨err, (Option.some.inj hr).symm⟩⟩
    · refine Or.inl ⟨?_, fun user hd hu => absurd ⟨user, hd, hu⟩ hc⟩
      have hsame : v.db.get RoomMaxIdKey = w.db.get RoomMaxIdKey := by
        rw [hdb]
        rcases run_cases c w.db RoomMaxIdKey with hsame | hwr
        · exact hsame
        cases hwr with
        | login l k hk => exact absurd hk.symm (uniquePattern_ne_maxId _ _)
        | logout user k hk => exact absurd hk.symm (uniquePattern_ne_maxId _ _)
        | count user hd k hk => exact absurd ⟨user, hd, rfl⟩ hc
        | create n hd k hk => exact absurd hk.symm (roomPattern_ne_maxId _)
        | close roomId hd k hk =>
          rcases hk with hk | hk
          · exact absurd hk.symm (memberPattern_ne_maxId _)
          · exact absurd hk.symm (roomPattern_ne_maxId _)
        | join user roomId hd k hk => exact absurd hk.symm (memberPattern_ne_maxId _)
        | leave user roomId hd k hk => exact absurd hk.symm (memberPattern_ne_maxId _)
      simp only [maxId, hsame]
  · exact Or.inl ⟨by rw [hdb], fun _ _ _ => hr⟩

/-- A room key appears with the `HMSET` of its number and goes with the
transaction of its text. -/
theorem Executed.room_cases (h : Executed w v e p c r) (hw : WF w) (t : Str) :
    v.db.get (roomPattern t) = w.db.get (roomPattern t) ∨
    (∃ n hd, c = .addRoomSet n hd ∧ t = natText n ∧ v.db.get (roomPattern t) ≠ none) ∨
    (∃ roomId hd order, c = .delRoomExec roomId hd ∧ roomId.text = t ∧ e = .exec p (.done order) ∧
      v.db.get (roomPattern t) = none) := by
  rcases h.done_or_failed with ⟨order, he, hdb, _⟩ | ⟨hdb, _⟩
  · rw [hdb]
    rcases run_cases c w.db (roomPattern t) with hsame | hwr
    · exact Or.inl hsame
    cases hwr with
    | login l k hk => exact absurd hk.symm (uniquePattern_ne_roomPattern _ _ _)
    | logout user k hk => exact absurd hk.symm (uniquePattern_ne_roomPattern _ _ _)
    | count user hd k hk => exact absurd hk (roomPattern_ne_maxId _)
    | create n hd k hk =>
      have ht := (roomPattern_inj _ _).mp hk
      refine Or.inr (Or.inl ⟨n, hd, rfl, ht, ?_⟩)
      rw [ht]
      exact fun hn => Option.some_ne_none _ ((hmset_room w.own w.db hw.db n).symm.trans hn)
    | close roomId hd k hk =>
      rcases hk with hk | hk
      · exact absurd hk (roomPattern_ne_memberPattern _ _)
      · refine Or.inr (Or.inr ⟨roomId, hd, order, rfl, ((roomPattern_inj _ _).mp hk).symm, he, ?_⟩)
        exact delRoom_run w.db roomId.text _ (Or.inr hk)
    | join user roomId hd k hk => exact absurd hk (roomPattern_ne_memberPattern _ _)
    | leave user roomId hd k hk => exact absurd hk (roomPattern_ne_memberPattern _ _)
  · exact Or.inl (by rw [hdb])

/-- A user enters a member set with its `SADD`, and leaves it with its `SREM` or
with the room. -/
theorem Executed.member_cases (h : Executed w v e p c r) (hw : WF w) (t m : Str) :
    (m ∈ members v.db t ↔ m ∈ members w.db t) ∨
    (∃ user roomId hd order, c = .addRoomUserAdd user roomId hd ∧ roomId.text = t ∧
      user.userId = m ∧ e = .exec p (.done order) ∧ m ∈ members v.db t) ∨
    (∃ user roomId hd, c = .delRoomUserRem user roomId hd ∧ roomId.text = t ∧ user.userId = m ∧
      m ∉ members v.db t) ∨
    (∃ roomId hd order, c = .delRoomExec roomId hd ∧ roomId.text = t ∧ e = .exec p (.done order) ∧
      members v.db t = []) := by
  rcases h.done_or_failed with ⟨order, he, hdb, _⟩ | ⟨hdb, _⟩
  · rw [hdb]
    rcases run_cases c w.db (memberPattern t) with hsame | hwr
    · exact Or.inl (by rw [members, members, Store.membersOf_congr _ _ _ hsame])
    cases hwr with
    | login l k hk => exact absurd hk.symm (uniquePattern_ne_memberPattern _ _ _)
    | logout user k hk => exact absurd hk.symm (uniquePattern_ne_memberPattern _ _ _)
    | count user hd k hk => exact absurd hk (memberPattern_ne_maxId _)
    | create n hd k hk => exact absurd hk.symm (roomPattern_ne_memberPattern _ _)
    | close roomId hd k hk =>
      rcases hk with hk | hk
      · refine Or.inr (Or.inr (Or.inr ⟨roomId, hd, order, rfl, ?_, he, ?_⟩))
        · exact ((memberPattern_inj _ _).mp hk).symm
        · have hnone := delRoom_run w.db roomId.text _ (Or.inl hk)
          simp only [members, Store.membersOf]
          rw [show (Call.delRoomExec roomId hd).txn = .multi [.smembers (memberPattern roomId.text),
            .del (memberPattern roomId.text), .del (roomPattern roomId.text)] from rfl, hnone]
      · exact absurd hk.symm (roomPattern_ne_memberPattern _ _)
    | join user roomId hd k hk =>
      have ht := (memberPattern_inj _ _).mp hk
      have hset : m ∈ members (Store.sadd (memberPattern t) user.userId w.db).1 t ↔
          m = user.userId ∨ m ∈ members w.db t := Store.membersOf_sadd _ _ _ (hw.member_type t) m
      have hrun : (Call.addRoomUserAdd user roomId hd).txn.run w.db =
          Store.sadd (memberPattern t) user.userId w.db := by
        rw [ht]
        rfl
      rw [hrun, hset]
      by_cases hm : m = user.userId
      · exact Or.inr (Or.inl ⟨user, roomId, hd, order, rfl, ht.symm, hm.symm, he, Or.inl hm⟩)
      · exact Or.inl (by simp [hm])
    | leave user roomId hd k hk =>
      have ht := (memberPattern_inj _ _).mp hk
      have hset : m ∈ members (Store.srem (memberPattern t) user.userId w.db).1 t ↔
          m ≠ user.userId ∧ m ∈ members w.db t := Store.membersOf_srem _ _ _ m
      have hrun : (Call.delRoomUserRem user roomId hd).txn.run w.db =
          Store.srem (memberPattern t) user.userId w.db := by
        rw [ht]
        rfl
      rw [hrun, hset]
      by_cases hm : m = user.userId
      · exact Or.inr (Or.inr (Or.inl ⟨user, roomId, hd, rfl, ht.symm, hm.symm, by simp [hm]⟩))
      · exact Or.inl (by simp [hm])
  · exact Or.inl (by rw [hdb])

theorem Executed.member_reply {room m : Str} {order : List Str} (h : Executed w v e p c r) (hw : WF w)
    (he : e = .exec p (.done order)) (hc : c.txn = .one (.sadd (memberPattern room) m) ∨
      c.txn = .one (.srem (memberPattern room) m)) (err : Str) : r ≠ .error err := by
  rcases h.db with ⟨order', _, _, hr⟩ | ⟨_, hf, _⟩
  · have hint : ∃ n, (c.txn.run w.db).2 = .int n := by
      rcases hc with hc | hc
      · rw [hc]
        exact Store.sadd_int _ _ _ (hw.member_type room)
      · rw [hc]
        exact Store.srem_int _ _ _ (hw.member_type room)
    obtain ⟨n, hn⟩ := hint
    rw [hn] at hr
    cases hr
    exact nofun
  · rw [he] at hf
    cases hf

theorem Executed.closed {roomId : JsVal} {hd : Handler} {order : List Str}
    (h : Executed w v e p (.delRoomExec roomId hd) r) (he : e = .exec p (.done order)) :
    v.db.get (roomPattern roomId.text) = none ∧ members v.db roomId.text = [] := by
  have hgone : ∀ k, k = memberPattern roomId.text ∨ k = roomPattern roomId.text →
      v.db.get k = none := by
    intro k hk
    rcases h.db with ⟨_, _, hdb, _⟩ | ⟨_, hf, _⟩
    · rw [hdb]
      exact delRoom_run w.db roomId.text k hk
    · rw [he] at hf
      cases hf
  refine ⟨hgone _ (Or.inr rfl), ?_⟩
  simp only [members, Store.membersOf, hgone _ (Or.inl rfl)]

end

end NodeServer

import NodeServer.Proof.Issued
import NodeServer.Proof.Shutdown

/-! # Key families

A key belongs to one of four families, told apart by their first six
characters. Each family holds values of one type, and every command addresses a
key of a family with its own type. -/

namespace NodeServer

open DBModelKeys

/-! ### The families -/

inductive Family where
  | online
  | room
  | member
  | maxId
  deriving DecidableEq

/- The text all keys of a family begin with. -/
def Family.stem : Family → Str
  | .online => OnlineUserKey ++ ['-']
  | .room => RoomIdKey ++ ['-']
  | .member => RoomMemberKey ++ ['-']
  | .maxId => RoomMaxIdKey

def Family.Has (F : Family) (k : Str) : Prop :=
  match F with
  | .maxId => k = RoomMaxIdKey
  | F => F.stem <+: k

def Family.kind : Family → Store.Kind
  | .online | .room => .hash
  | .member => .set
  | .maxId => .int

theorem Family.Has.stem {F : Family} {k : Str} (h : F.Has k) : F.stem <+: k := by
  cases F with
  | maxId =>
    rw [show k = RoomMaxIdKey from h]
    exact List.prefix_rfl
  | online | room | member => exact h

theorem Family.stem_inj (F G : Family) (h : F.stem.take 6 = G.stem.take 6) : F = G := by
  revert h
  cases F <;> cases G <;> decide

theorem Family.disjoint {F G : Family} {k : Str} (hF : F.Has k) (hG : G.Has k) : F = G := by
  have head : ∀ {H : Family}, H.Has k → k.take 6 = H.stem.take 6 := by
    intro H hH
    obtain ⟨t, rfl⟩ := hH.stem
    have hlen : 6 ≤ H.stem.length := by cases H <;> decide
    rw [List.take_append_of_le_length hlen]
  exact F.stem_inj G ((head hF).symm.trans (head hG))

theorem online_has (u s : Str) : Family.online.Has (uniquePattern u s) := IsOnlineKey.user u s

theorem room_has (r : Str) : Family.room.Has (roomPattern r) := ⟨r, by simp [Family.stem, roomPattern]⟩

theorem member_has (r : Str) : Family.member.Has (memberPattern r) :=
  ⟨r, by simp [Family.stem, memberPattern]⟩

/-- A room id from a client may be any pattern, but not one that leaves the
family of room keys. -/
theorem roomPattern_family (r k : Str) (h : Glob.stringmatch (roomPattern r) k = true) :
    Family.room.Has k := by
  have hform : roomPattern r = Family.room.stem ++ r := by simp [roomPattern, Family.stem]
  rw [hform, Glob.stringmatch_stem _ _ _ (by decide)] at h
  obtain ⟨t, rfl, _⟩ := h
  exact List.prefix_append _ _

/- The texts of keys and patterns keep ids and families apart. -/
structure KeyCodec : Prop where
  injective : ∀ u v a b, '-' ∉ a → '-' ∉ b →
    uniquePattern u (socketIdOf a) = uniquePattern v (socketIdOf b) → u = v ∧ a = b
  online : ∀ u s, Family.online.Has (uniquePattern u s)
  room : ∀ r, Family.room.Has (roomPattern r)
  member : ∀ r, Family.member.Has (memberPattern r)
  maxId : Family.maxId.Has RoomMaxIdKey
  disjoint : ∀ (F G : Family) k, F.Has k → G.Has k → F = G
  userIdPattern : ∀ u k, Glob.stringmatch (userIdPattern u) k = true → Family.online.Has k
  roomListPattern : ∀ k, Glob.stringmatch roomListPattern k = true → Family.room.Has k
  roomPattern : ∀ r k, Glob.stringmatch (roomPattern r) k = true → Family.room.Has k

theorem keyCodec : KeyCodec where
  injective := uniquePattern_inj_suffix
  online := online_has
  room := room_has
  member := member_has
  maxId := rfl
  disjoint _ _ _ := Family.disjoint
  userIdPattern := userIdPattern_family
  roomListPattern k := (roomListPattern_iff k).mp
  roomPattern := roomPattern_family

/-! ### The keys a room list reads -/

/-- `getRoomList` reads the keys it was given one by one. -/
theorem Handled.issued_roomListGet {w v : World} {e : Event} {p : Pid} {i : Input} {x : Proc}
    {key : Str} {rest roomList : List Str} {hd : Handler} (h : Handled w v e p i x) (hw : WF w)
    (hc : .roomListGet key rest roomList hd ∈ x.issued p i) :
    (∃ user, i = .reply (.roomListKeys (some user) hd) (.array (key :: rest)) ∧ roomList = []) ∨
    ∃ key₀ before res, i = .reply (.roomListGet key₀ (key :: rest) before hd) (.bulk res) ∧
      roomList = before ++ [res] := by
  cases h.issued_origin hw _ hc with
  | roomListGet _ _ _ _ c r replied lists =>
    subst replied
    simp only [Proc.issued] at hc
    cases c with
    | roomListKeys user hd' =>
      unfold Proc.replyCalls at hc
      split at hc <;> simp_all
    | roomListGet key₀ rest₀ before hd' =>
      unfold Proc.replyCalls at hc
      split at hc <;> simp_all
    | _ => cases lists

/- Every key a room list is about to read is a room key. -/
structure ListsRooms (w : World) : Prop where
  calls : ∀ p key rest roomList h, .roomListGet key rest roomList h ∈ (w.procs p).calls →
    ∀ k ∈ key :: rest, Family.room.Has k
  replies : ∀ p user h keys, (.roomListKeys user h, .array keys) ∈ (w.procs p).answered →
    ∀ k ∈ keys, Family.room.Has k

theorem ListsRooms.initial : ListsRooms World.initial where
  calls p key rest roomList h hm := by cases hm
  replies p user h keys hm := by cases hm

section

variable {w v : World} {e : Event} {p : Pid}

theorem ListsRooms.executed {c : Call} {r : Store.Reply} (hl : ListsRooms w)
    (h : Executed w v e p c r) : ListsRooms v where
  calls q key rest roomList hd hm := hl.calls q key rest roomList hd (h.calls q ▸ hm)
  replies q user hd keys hm := by
    rcases h.mem_answered q _ _ hm with hold | ⟨-, rfl, rfl⟩
    · exact hl.replies q user hd keys hold
    · rcases h.db with ⟨order, -, -, hr⟩ | ⟨message, -, -, hr⟩
      · intro k hk
        obtain ⟨heq, -, hmem⟩ := Store.keys_inOrder order roomListPattern w.db _ hr
        rw [Store.Reply.array.inj heq] at hk
        exact keyCodec.roomListPattern k ((hmem k).mp hk).2
      · cases hr

theorem ListsRooms.handled {i : Input} {x : Proc} (hl : ListsRooms w) (hw : WF w)
    (h : Handled w v e p i x) : ListsRooms v where
  calls q key rest roomList hd hm := by
    by_cases hq : q = p
    · subst hq
      obtain ⟨hbefore, hafter⟩ := h.calls_issued hw
      rw [hafter] at hm
      rcases List.mem_append.mp hm with hold | hnew
      · exact hl.calls q key rest roomList hd (hbefore ▸ List.mem_append_right _ hold)
      · rcases h.issued_roomListGet hw hnew with ⟨user, rfl, -⟩ | ⟨key₀, before, res, rfl, -⟩
        · exact hl.replies q (some user) hd (key :: rest) (h.reply_mem _ _ rfl)
        · intro k hk
          have hmem : Call.roomListGet key₀ (key :: rest) before hd ∈ (w.procs q).calls :=
            hbefore ▸ List.mem_append_left _ (List.mem_singleton_self _)
          exact hl.calls q _ _ _ _ hmem k (List.mem_cons_of_mem _ hk)
    · obtain ⟨-, -, hsent, hans⟩ := h.other_conns q hq
      rw [Proc.calls, hsent, hans] at hm
      exact hl.calls q key rest roomList hd hm
  replies q user hd keys hm := hl.replies q user hd keys (h.answered_sub hw q _ hm)

theorem ListsRooms.step (hl : ListsRooms w) (hw : WF w) (h : NodeServer.step w e = some v) :
    ListsRooms v := by
  rcases step_cases w v e h with ⟨p, c, r, h⟩ | ⟨p, i, x, h⟩
  · exact hl.executed h
  · exact hl.handled hw h

end

/-! ### No command meets a key of another type -/

/- A key of some family with this type. -/
def keyType (k : Str) (kind : Store.Kind) : Prop := ∃ F : Family, F.Has k ∧ F.kind = kind

theorem EntryOk.typed {own : Pid → Str → Prop} {k : Str} {value : Store.Value}
    (h : EntryOk own k value) : keyType k value.kind := by
  rcases h with ⟨user, q, -, rfl, rfl⟩ | ⟨n, rfl, rfl⟩ | ⟨room, ms, rfl, rfl⟩ | ⟨rfl, n, rfl⟩
  · exact ⟨.online, online_has _ _, rfl⟩
  · exact ⟨.room, room_has _, rfl⟩
  · exact ⟨.member, member_has _, rfl⟩
  · exact ⟨.maxId, rfl, rfl⟩

/-- Every command addresses a key of a family with its own type. -/
theorem addressed (own : Pid → Str → Prop) (p : Pid) (c : Call) (hc : CallOk own p c)
    (hlist : ∀ key rest roomList h, c = .roomListGet key rest roomList h → Family.room.Has key) :
    ∀ cmd ∈ c.txn.cmds, ∀ key, cmd.key = some key →
      ∃ F : Family, F.Has key ∧ ∀ kind, cmd.kind = some kind → kind = F.kind := by
  intro cmd hcmd key hkey
  cases c with
  | lookupKeys | delRoomKeys | broadcastKeys | roomListKeys | addRoomUserKeys =>
    rw [List.mem_singleton.mp hcmd] at hkey
    cases hkey
  | lookupHash key₀ rest userList next =>
    rw [List.mem_singleton.mp hcmd] at hkey ⊢
    cases hkey
    exact ⟨.online, hc.1 _ (List.mem_cons_self ..), fun kind hk => (Option.some.inj hk).symm⟩
  | loginSet l =>
    rw [List.mem_singleton.mp hcmd] at hkey ⊢
    cases hkey
    exact ⟨.online, online_has _ _, fun kind hk => (Option.some.inj hk).symm⟩
  | logoutDel user =>
    rw [List.mem_singleton.mp hcmd] at hkey ⊢
    cases hkey
    exact ⟨.online, online_has _ _, fun kind hk => by cases hk⟩
  | addRoomIncr user h =>
    rw [List.mem_singleton.mp hcmd] at hkey ⊢
    cases hkey
    exact ⟨.maxId, rfl, fun kind hk => (Option.some.inj hk).symm⟩
  | addRoomSet n h =>
    rw [List.mem_singleton.mp hcmd] at hkey ⊢
    cases hkey
    exact ⟨.room, room_has _, fun kind hk => (Option.some.inj hk).symm⟩
  | roomListGet key₀ rest roomList h =>
    rw [List.mem_singleton.mp hcmd] at hkey ⊢
    cases hkey
    exact ⟨.room, hlist _ _ _ _ rfl, fun kind hk => (Option.some.inj hk).symm⟩
  | broadcastMembers | addRoomUserMembers | addRoomUserAdd | delRoomUserMembers | delRoomUserRem =>
    rw [List.mem_singleton.mp hcmd] at hkey ⊢
    cases hkey
    exact ⟨.member, member_has _, fun kind hk => (Option.some.inj hk).symm⟩
  | delRoomExec roomId h =>
    simp only [Call.txn, Store.Txn.cmds, List.mem_cons, List.not_mem_nil, or_false] at hcmd
    rcases hcmd with rfl | rfl | rfl
    · cases hkey
      exact ⟨.member, member_has _, fun kind hk => (Option.some.inj hk).symm⟩
    · cases hkey
      exact ⟨.member, member_has _, fun kind hk => by cases hk⟩
    · cases hkey
      exact ⟨.room, room_has _, fun kind hk => by cases hk⟩

/- Each command of the call is used on a key of a family whose type is its own,
finds there nothing or a value of that type, and is not turned down for it. -/
structure CmdTyped (cmd : Store.Cmd) (db : Store.Db) : Prop where
  accepted : (cmd.run db).2 ≠ Store.wrongtypeerr
  family : ∀ key, cmd.key = some key → ∃ F : Family, F.Has key ∧
    (∀ kind, cmd.kind = some kind → kind = F.kind) ∧
    ∀ value, db.get key = some value → value.kind = F.kind

/- The worlds the system gets to while its servers may also be shut down. A
server that was shut down may go on here, which only adds runs. -/
inductive Lives : World → Prop
  | start : Lives World.initial
  | next {w v : World} (e : Event) : Lives w → step w e = some v → Lives v
  | shutdown {w : World} (p : Pid) : Lives w → Lives (w.shutdown p)

theorem ListsRooms.shutdown {w : World} (hl : ListsRooms w) (p : Pid) :
    ListsRooms (w.shutdown p) where
  calls q key rest roomList h hm := by
    by_cases hq : q = p
    · subst hq
      rw [Proc.calls, shutdown_proc, ← List.append_assoc] at hm
      rcases List.mem_append.mp hm with hm | hm
      · exact hl.calls q key rest roomList h hm
      · obtain ⟨user, -, heq⟩ := List.mem_map.mp hm
        cases heq
    · rw [shutdown_other w p q hq] at hm
      exact hl.calls q key rest roomList h hm
  replies q user h keys hm := by
    by_cases hq : q = p
    · subst hq
      rw [shutdown_proc] at hm
      exact hl.replies q user h keys hm
    · rw [shutdown_other w p q hq] at hm
      exact hl.replies q user h keys hm

theorem Lives.typed {w : World} (h : Lives w) : WF w ∧ ListsRooms w := by
  induction h with
  | start => exact ⟨WF.initial, ListsRooms.initial⟩
  | next e _ hs ih => exact ⟨ih.1.step hs, ih.2.step ih.1 hs⟩
  | shutdown p _ ih => exact ⟨ih.1.shutdown p, ih.2.shutdown p⟩

theorem CmdTyped.of_fits {cmd : Store.Cmd} {db : Store.Db} (hdb : Store.Respects keyType db)
    (h : ∀ key, cmd.key = some key →
      ∃ F : Family, F.Has key ∧ ∀ kind, cmd.kind = some kind → kind = F.kind) :
    CmdTyped cmd db := by
  have hvalue : ∀ (F : Family) key value, F.Has key → db.get key = some value →
      value.kind = F.kind := by
    intro F key value hF hv
    obtain ⟨G, hG, hkind⟩ := hdb key value hv
    rw [Family.disjoint hF hG, hkind]
  constructor
  · apply Store.run_typed
    intro key kind value hkey hkind hv
    obtain ⟨F, hF, hfit⟩ := h key hkey
    rw [hvalue F key value hF hv, hfit kind hkind]
  · intro key hkey
    obtain ⟨F, hF, hfit⟩ := h key hkey
    exact ⟨F, hF, hfit, fun value hv => hvalue F key value hF hv⟩

/-- Keys determine their ids, families are disjoint, patterns stay inside their
family, and no command ever meets a key of another type. -/
theorem redis_keys_typed (w : World) (hlives : Lives w) :
    KeyCodec ∧ ∀ p, ∀ c ∈ (w.procs p).sent, ∀ a ∈ c.txn.runs w.db, CmdTyped a.1 a.2 := by
  obtain ⟨hw, hl⟩ := hlives.typed
  refine ⟨keyCodec, ?_⟩
  intro p c hc a ha
  have hcall : c ∈ (w.procs p).calls := List.mem_append_right _ hc
  have haddr := addressed w.own p c (hw.calls p c hcall) fun key rest roomList h heq =>
    hl.calls p key rest roomList h (heq ▸ hcall) key (List.mem_cons_self ..)
  have hfits : ∀ cmd ∈ c.txn.cmds, cmd.Fits keyType := by
    intro cmd hcmd key kind hkey hkind
    obtain ⟨F, hF, hfit⟩ := haddr cmd hcmd key hkey
    exact ⟨F, hF, (hfit kind hkind).symm⟩
  have hdb : Store.Respects keyType w.db := fun k value hv => (hw.db k value hv).typed
  obtain ⟨hcmd, hrespects⟩ := Store.runs_respects c.txn w.db hfits hdb a ha
  exact .of_fits hrespects (haddr a.1 hcmd)

theorem Lives.of_reach {w : World} (h : Reachable w) : Lives w :=
  h.invariant Lives .start fun _ e _ hl _ hs => .next e hl hs

/- A has logged in, the id of its new room is 1, and the `HMSET` of the room is
to be executed when the server is shut down. -/
def creatingWorld : World :=
  (Run.ends step World.initial (loginTrace ++ [.exec 0 (.done []), .reply 0,
    .message 0 (socketIdOf ['A']) (Route.roomCreate.request none .undefined) 3,
    .exec 0 (.done []), .reply 0])).shutdown 0

theorem redis_keys_typed_creating :
    ((creatingWorld.procs 0).sent.map fun c => c.txn.cmds.map Store.Cmd.key) =
        [[some (roomPattern ['1'])], [some (uniquePattern ['u'] (socketIdOf ['A']))]] ∧
      KeyCodec ∧ ∀ p, ∀ c ∈ (creatingWorld.procs p).sent, ∀ a ∈ c.txn.runs creatingWorld.db,
        CmdTyped a.1 a.2 :=
  ⟨by decide +kernel, redis_keys_typed creatingWorld
    (.shutdown 0 (.of_reach (Run.reach_ends _ (by decide +kernel))))⟩

end NodeServer

import NodeServer.Lib.Glob
import Mathlib.Algebra.Group.Nat.Defs

/-! # A keyspace of hashes, sets and counters

The commands of `redis-5.0.2` a client can use here, each one atomic. A command
on a key of another type answers an error and changes nothing, a set that loses
its last member is removed with its key, and `KEYS` and `SMEMBERS` list their
elements in whatever order the hash tables give. -/

namespace NodeServer.Store

inductive Value where
  | hash (fields : List (Str × Str))
  | set (members : List Str)
  | int (n : ℕ)

abbrev Db := Table Value

inductive Cmd where
  | keys (pattern : Str)
  | hgetall (key : Str)
  | hget (key field : Str)
  | hmset (key : Str) (fields : List (Str × Str))
  | del (key : Str)
  | incr (key : Str)
  | smembers (key : Str)
  | sadd (key member : Str)
  | srem (key member : Str)

/-- What a callback receives: an error, or a result in the client library's
shape (a missing hash is `nil`). -/
inductive Reply where
  | error (message : Str)
  | nil
  | status
  | int (n : ℕ)
  | bulk (s : Str)
  | array (xs : List Str)
  | hash (fields : List (Str × Str))
  | exec (replies : List Reply)

def wrongtypeerr : Reply :=
  .error "WRONGTYPE Operation against a key holding the wrong kind of value".toList

def overflowerr : Reply := .error "ERR increment or decrement would overflow".toList

/-- Overwrite a field of a hash, or add it at the end. -/
def setField : List (Str × Str) → Str × Str → List (Str × Str)
  | [], f => [f]
  | g :: fs, f => if g.1 = f.1 then f :: fs else g :: setField fs f

def setFields (fs : List (Str × Str)) (new : List (Str × Str)) : List (Str × Str) :=
  new.foldl setField fs

def hmset (key : Str) (fields : List (Str × Str)) (db : Db) : Db × Reply :=
  match db.get key with
  | none => (db.set key (.hash (setFields [] fields)), .status)
  | some (.hash fs) => (db.set key (.hash (setFields fs fields)), .status)
  | some _ => (db, wrongtypeerr)

def del (key : Str) (db : Db) : Db × Reply :=
  match db.get key with
  | none => (db, .int 0)
  | some _ => (db.del key, .int 1)

def incr (key : Str) (db : Db) : Db × Reply :=
  match db.get key with
  | none => (db.set key (.int 1), .int 1)
  | some (.int n) =>
    if n + 1 < 2 ^ 63 then (db.set key (.int (n + 1)), .int (n + 1)) else (db, overflowerr)
  | some _ => (db, wrongtypeerr)

def sadd (key member : Str) (db : Db) : Db × Reply :=
  match db.get key with
  | none => (db.set key (.set [member]), .int 1)
  | some (.set ms) =>
    if member ∈ ms then (db, .int 0) else (db.set key (.set (ms ++ [member])), .int 1)
  | some _ => (db, wrongtypeerr)

def srem (key member : Str) (db : Db) : Db × Reply :=
  match db.get key with
  | none => (db, .int 0)
  | some (.set ms) =>
    if member ∈ ms then
      if ms.filter (· ≠ member) = [] then (db.del key, .int 1)
      else (db.set key (.set (ms.filter (· ≠ member))), .int 1)
    else (db, .int 0)
  | some _ => (db, wrongtypeerr)

def hgetall (key : Str) (db : Db) : Reply :=
  match db.get key with
  | none => .nil
  | some (.hash fs) => .hash fs
  | some _ => wrongtypeerr

def hget (key field : Str) (db : Db) : Reply :=
  match db.get key with
  | none => .nil
  | some (.hash fs) => match fs.lookup field with
    | none => .nil
    | some v => .bulk v
  | some _ => wrongtypeerr

def smembers (key : Str) (db : Db) : Reply :=
  match db.get key with
  | none => .array []
  | some (.set ms) => .array ms
  | some _ => wrongtypeerr

def keys (pattern : Str) (db : Db) : Reply :=
  .array (AList.keys db |>.filter fun k => Glob.stringmatch pattern k)

def Cmd.run : Cmd → Db → Db × Reply
  | .keys pattern, db => (db, Store.keys pattern db)
  | .hgetall key, db => (db, Store.hgetall key db)
  | .hget key field, db => (db, Store.hget key field db)
  | .hmset key fields, db => Store.hmset key fields db
  | .del key, db => Store.del key db
  | .incr key, db => Store.incr key db
  | .smembers key, db => (db, Store.smembers key db)
  | .sadd key member, db => Store.sadd key member db
  | .srem key member, db => Store.srem key member db

/-- One command, or a `MULTI ... EXEC` block, which runs as one step. -/
inductive Txn where
  | one (c : Cmd)
  | multi (cs : List Cmd)

def runAll : List Cmd → Db → Db × List Reply
  | [], db => (db, [])
  | c :: cs, db =>
    let rest := runAll cs (c.run db).1
    (rest.1, (c.run db).2 :: rest.2)

def Txn.run : Txn → Db → Db × Reply
  | .one c, db => c.run db
  | .multi cs, db => ((runAll cs db).1, .exec (runAll cs db).2)

/-- The reply with its elements listed in the given order; `none` when that is
not an order of them. -/
def Reply.listed (order : List Str) : Reply → Option Reply
  | .array xs => if order.Perm xs then some (.array order) else none
  | r => some r

def Reply.inOrder (order : List Str) : Reply → Option Reply
  | .exec rs => (rs.mapM (Reply.listed order)).map .exec
  | r => r.listed order

/-! ### Which keys a command can change -/

def Cmd.writes : Cmd → List Str
  | .hmset key _ | .del key | .incr key | .sadd key _ | .srem key _ => [key]
  | _ => []

def Txn.writes : Txn → List Str
  | .one c => c.writes
  | .multi cs => cs.flatMap Cmd.writes

theorem run_frame (c : Cmd) (db : Db) (k : Str) (hk : k ∉ c.writes) :
    (c.run db).1.get k = db.get k := by
  cases c with
  | keys pattern => rfl
  | hgetall key => rfl
  | hget key field => rfl
  | smembers key => rfl
  | hmset key fields =>
    have hne : k ≠ key := by simpa [Cmd.writes] using hk
    simp only [Cmd.run, Store.hmset]
    split <;> simp [Table.get_set, hne]
  | del key =>
    have hne : k ≠ key := by simpa [Cmd.writes] using hk
    simp only [Cmd.run, Store.del]
    split <;> simp [Table.get_del, hne]
  | incr key =>
    have hne : k ≠ key := by simpa [Cmd.writes] using hk
    simp only [Cmd.run, Store.incr]
    split
    · simp [Table.get_set, hne]
    · split <;> simp [Table.get_set, hne]
    · rfl
  | sadd key member =>
    have hne : k ≠ key := by simpa [Cmd.writes] using hk
    simp only [Cmd.run, Store.sadd]
    split
    · simp [Table.get_set, hne]
    · split <;> simp [Table.get_set, hne]
    · rfl
  | srem key member =>
    have hne : k ≠ key := by simpa [Cmd.writes] using hk
    simp only [Cmd.run, Store.srem]
    split
    · rfl
    · split
      · split <;> simp [Table.get_set, Table.get_del, hne]
      · rfl
    · rfl

theorem runAll_frame (cs : List Cmd) (db : Db) (k : Str) (hk : k ∉ cs.flatMap Cmd.writes) :
    (runAll cs db).1.get k = db.get k := by
  induction cs generalizing db with
  | nil => rfl
  | cons c cs ih =>
    simp only [List.flatMap_cons, List.mem_append, not_or] at hk
    simp only [runAll]
    rw [ih _ hk.2, run_frame c db k hk.1]

theorem txn_frame (t : Txn) (db : Db) (k : Str) (hk : k ∉ t.writes) :
    (t.run db).1.get k = db.get k := by
  cases t with
  | one c => exact run_frame c db k hk
  | multi cs => exact runAll_frame cs db k hk

/-- A command that answers an error changes nothing. -/
theorem run_error (c : Cmd) (db : Db) (message : Str) (h : (c.run db).2 = .error message) :
    (c.run db).1 = db := by
  cases c with
  | keys | hgetall | hget | smembers => rfl
  | hmset key fields =>
    simp only [Cmd.run, Store.hmset] at h ⊢
    split at h
    · cases h
    · cases h
    · rfl
  | del key =>
    simp only [Cmd.run, Store.del] at h
    split at h <;> cases h
  | incr key =>
    simp only [Cmd.run, Store.incr] at h ⊢
    split at h
    · cases h
    · split at h
      · cases h
      · next hfull => rw [if_neg hfull]
    · rfl
  | sadd key member =>
    simp only [Cmd.run, Store.sadd] at h ⊢
    split at h
    · cases h
    · split at h <;> cases h
    · rfl
  | srem key member =>
    simp only [Cmd.run, Store.srem] at h ⊢
    split at h
    · cases h
    · split at h
      · split at h <;> cases h
      · cases h
    · rfl

/-- A transaction is answered with the replies to its commands, never an error. -/
theorem txn_error (t : Txn) (db : Db) (message : Str) (h : (t.run db).2 = .error message) :
    (t.run db).1 = db := by
  cases t with
  | one c => exact run_error c db message h
  | multi cs => cases h

/-- What a command leaves under a key depends on what was there only. -/
theorem run_local (c : Cmd) (db db' : Db) (k : Str) (h : db.get k = db'.get k) :
    (c.run db).1.get k = (c.run db').1.get k := by
  by_cases hk : k ∈ c.writes
  · cases c with
    | hmset key fields =>
      rw [List.mem_singleton.mp hk] at h ⊢
      simp only [Cmd.run, hmset, h]
      split
      · simp only [Table.get_set, if_true]
      · simp only [Table.get_set, if_true]
      · exact h
    | del key =>
      rw [List.mem_singleton.mp hk] at h ⊢
      simp only [Cmd.run, del, h]
      split
      · exact h
      · simp only [Table.get_del, if_true]
    | incr key =>
      rw [List.mem_singleton.mp hk] at h ⊢
      simp only [Cmd.run, incr, h]
      split
      · simp only [Table.get_set, if_true]
      · split
        · simp only [Table.get_set, if_true]
        · exact h
      · exact h
    | sadd key member =>
      rw [List.mem_singleton.mp hk] at h ⊢
      simp only [Cmd.run, sadd, h]
      split
      · simp only [Table.get_set, if_true]
      · split
        · exact h
        · simp only [Table.get_set, if_true]
      · exact h
    | srem key member =>
      rw [List.mem_singleton.mp hk] at h ⊢
      simp only [Cmd.run, srem, h]
      split
      · exact h
      · split
        · split
          · simp only [Table.get_del, if_true]
          · simp only [Table.get_set, if_true]
        · exact h
      · exact h
    | _ => cases hk
  · rw [run_frame c db k hk, run_frame c db' k hk, h]

theorem txn_local (t : Txn) (db db' : Db) (k : Str) (h : db.get k = db'.get k) :
    (t.run db).1.get k = (t.run db').1.get k := by
  cases t with
  | one c => exact run_local c db db' k h
  | multi cs =>
    show (runAll cs db).1.get k = (runAll cs db').1.get k
    induction cs generalizing db db' with
    | nil => exact h
    | cons c cs ih => exact ih _ _ (run_local c db db' k h)

/-! ### What each writing command leaves under its key -/

theorem hmset_get (key : Str) (fields : List (Str × Str)) (db : Db) :
    (hmset key fields db).1.get key =
      match db.get key with
      | none => some (.hash (setFields [] fields))
      | some (.hash fs) => some (.hash (setFields fs fields))
      | some v => some v := by
  unfold hmset
  split <;> simp_all [Table.get_set]

theorem del_get (key : Str) (db : Db) : (del key db).1.get key = none := by
  unfold del
  split
  · assumption
  · simp [Table.get_del]

theorem incr_get (key : Str) (db : Db) :
    (incr key db).1.get key =
      match db.get key with
      | none => some (.int 1)
      | some (.int n) => some (.int (if n + 1 < 2 ^ 63 then n + 1 else n))
      | some v => some v := by
  unfold incr
  split
  · simp [Table.get_set]
  · rename_i n h
    by_cases hn : n + 1 < 2 ^ 63
    · simp only [hn, if_true, Table.get_set]
    · simp only [hn, if_false, h]
  · assumption

theorem sadd_get (key member : Str) (db : Db) (v : Value) (h : (sadd key member db).1.get key = some v) :
    db.get key = some v ∨ ∃ ms, v = .set ms := by
  unfold sadd at h
  split at h
  · simp only [Table.get_set, if_true, Option.some.injEq] at h
    exact Or.inr ⟨_, h.symm⟩
  · split at h
    · exact Or.inl h
    · simp only [Table.get_set, if_true, Option.some.injEq] at h
      exact Or.inr ⟨_, h.symm⟩
  · exact Or.inl h

theorem srem_get (key member : Str) (db : Db) (v : Value) (h : (srem key member db).1.get key = some v) :
    db.get key = some v ∨ ∃ ms, v = .set ms := by
  unfold srem at h
  split at h
  · exact Or.inl h
  · split at h
    · split at h
      · simp [Table.get_del] at h
      · simp only [Table.get_set, if_true, Option.some.injEq] at h
        exact Or.inr ⟨_, h.symm⟩
    · exact Or.inl h
  · exact Or.inl h

/-- The members of the set under a key; a missing key is the empty set. -/
def membersOf (db : Db) (key : Str) : List Str :=
  match db.get key with
  | some (.set ms) => ms
  | _ => []

theorem membersOf_congr (db db' : Db) (key : Str) (h : db'.get key = db.get key) :
    membersOf db' key = membersOf db key := by
  simp only [membersOf, h]

theorem membersOf_sadd (key member : Str) (db : Db)
    (htype : db.get key = none ∨ ∃ ms, db.get key = some (.set ms)) (m : Str) :
    m ∈ membersOf (sadd key member db).1 key ↔ m = member ∨ m ∈ membersOf db key := by
  rcases htype with h | ⟨ms, h⟩
  · simp [membersOf, sadd, h, Table.get_set]
  · by_cases hm : member ∈ ms
    · simp only [membersOf, sadd, h, hm, if_true]
      constructor
      · exact Or.inr
      · rintro (rfl | hx)
        · exact hm
        · exact hx
    · simp [membersOf, sadd, h, hm, Table.get_set, or_comm]

theorem membersOf_srem (key member : Str) (db : Db) (m : Str) :
    m ∈ membersOf (srem key member db).1 key ↔ m ≠ member ∧ m ∈ membersOf db key := by
  unfold srem
  split
  · rename_i h
    simp [membersOf, h]
  · rename_i ms h
    split
    · rename_i hm
      split
      · rename_i he
        have hall : ∀ a ∈ ms, a = member := by simpa [List.filter_eq_nil_iff] using he
        simp only [membersOf, Table.get_del, if_true, h]
        constructor
        · intro hx
          cases hx
        · rintro ⟨hne, hx⟩
          exact absurd (hall m hx) hne
      · simp [membersOf, Table.get_set, h, and_comm]
    · rename_i hm
      simp only [membersOf, h]
      constructor
      · intro hx
        exact ⟨fun he => hm (he ▸ hx), hx⟩
      · exact And.right
  · rename_i v hv hs
    have hnil : membersOf db key = [] := by
      unfold membersOf
      split
      · rename_i ms hms
        exact absurd hms (by rw [hs]; intro he; exact hv ms (Option.some.inj he))
      · rfl
    simp [hnil]

/- No set lists a member twice. -/
def SetsNodup (db : Db) : Prop := ∀ key, (membersOf db key).Nodup

theorem run_setsNodup (c : Cmd) (db : Db) (h : SetsNodup db) : SetsNodup (c.run db).1 := by
  intro k
  by_cases hk : k ∈ c.writes
  · cases c with
    | hmset key fields =>
      rw [List.mem_singleton.mp hk]
      simp only [Cmd.run, hmset]
      split
      · simp [membersOf, Table.get_set]
      · simp [membersOf, Table.get_set]
      · exact h key
    | del key =>
      rw [List.mem_singleton.mp hk]
      simp only [Cmd.run, del]
      split
      · exact h key
      · simp [membersOf, Table.get_del]
    | incr key =>
      rw [List.mem_singleton.mp hk]
      simp only [Cmd.run, incr]
      split
      · simp [membersOf, Table.get_set]
      · split
        · simp [membersOf, Table.get_set]
        · exact h key
      · exact h key
    | sadd key member =>
      rw [List.mem_singleton.mp hk]
      simp only [Cmd.run, sadd]
      split
      · simp [membersOf, Table.get_set]
      · rename_i ms hms
        have hnodup : ms.Nodup := by simpa [membersOf, hms] using h key
        split
        · exact h key
        · rename_i hm
          simp only [membersOf, Table.get_set, if_true]
          exact List.nodup_append.mpr ⟨hnodup, List.nodup_singleton member, by
            intro a ha b hb
            rw [List.mem_singleton.mp hb]
            exact fun hab => hm (hab ▸ ha)⟩
      · exact h key
    | srem key member =>
      rw [List.mem_singleton.mp hk]
      simp only [Cmd.run, srem]
      split
      · exact h key
      · rename_i ms hms
        have hnodup : ms.Nodup := by simpa [membersOf, hms] using h key
        split
        · split
          · simp [membersOf, Table.get_del]
          · simp only [membersOf, Table.get_set, if_true]
            exact hnodup.filter _
        · exact h key
      · exact h key
    | _ => cases hk
  · rw [membersOf_congr _ _ _ (run_frame c db k hk)]
    exact h k

theorem txn_setsNodup (t : Txn) (db : Db) (h : SetsNodup db) : SetsNodup (t.run db).1 := by
  cases t with
  | one c => exact run_setsNodup c db h
  | multi cs =>
    show SetsNodup (runAll cs db).1
    induction cs generalizing db with
    | nil => exact h
    | cons c cs ih => exact ih (c.run db).1 (run_setsNodup c db h)

theorem sadd_int (key member : Str) (db : Db)
    (htype : db.get key = none ∨ ∃ ms, db.get key = some (.set ms)) :
    ∃ n, (sadd key member db).2 = .int n := by
  rcases htype with h | ⟨ms, h⟩
  · exact ⟨1, by simp only [sadd, h]⟩
  · by_cases hm : member ∈ ms
    · exact ⟨0, by simp only [sadd, h, hm, if_true]⟩
    · exact ⟨1, by simp only [sadd, h, hm, if_false]⟩

theorem srem_int (key member : Str) (db : Db)
    (htype : db.get key = none ∨ ∃ ms, db.get key = some (.set ms)) :
    ∃ n, (srem key member db).2 = .int n := by
  rcases htype with h | ⟨ms, h⟩
  · exact ⟨0, by simp only [srem, h]⟩
  · by_cases hm : member ∈ ms
    · refine ⟨1, ?_⟩
      simp only [srem, h, hm, if_true]
      split
      · rfl
      · rfl
    · exact ⟨0, by simp only [srem, h, hm, if_false]⟩

/-! ### Orders of a listing -/

theorem inOrder_array (order xs : List Str) (r : Reply)
    (h : (Reply.array xs).inOrder order = some r) : r = .array order ∧ order.Perm xs := by
  simp only [Reply.inOrder, Reply.listed] at h
  split at h
  · rename_i hp
    exact ⟨(Option.some.inj h).symm, hp⟩
  · cases h

theorem keys_inOrder (order : List Str) (pattern : Str) (db : Db) (r : Reply)
    (h : (keys pattern db).inOrder order = some r) :
    r = .array order ∧ order.Nodup ∧
      ∀ k, k ∈ order ↔ (∃ v, db.get k = some v) ∧ Glob.stringmatch pattern k = true := by
  obtain ⟨hr, hp⟩ := inOrder_array order _ r h
  refine ⟨hr, hp.nodup_iff.mpr ((AList.keys_nodup db).filter _), ?_⟩
  intro k
  rw [hp.mem_iff, List.mem_filter, Table.mem_keys_iff]

def Reply.elements : Reply → List Str
  | .array xs => xs
  | _ => []

theorem listed_elements (r : Reply) : r.listed r.elements = some r := by
  cases r with
  | array xs => simp [Reply.listed, Reply.elements]
  | _ => rfl

/-- Only a transaction is answered with a list of replies. -/
theorem run_not_exec (c : Cmd) (db : Db) (rs : List Reply) : (c.run db).2 ≠ .exec rs := by
  cases c with
  | keys pattern => simp [Cmd.run, keys]
  | hgetall key =>
    simp only [Cmd.run, hgetall]
    split <;> simp [wrongtypeerr]
  | hget key field =>
    simp only [Cmd.run, hget]
    split
    · simp
    · split <;> simp
    · simp [wrongtypeerr]
  | hmset key fields =>
    simp only [Cmd.run, hmset]
    split <;> simp [wrongtypeerr]
  | del key =>
    simp only [Cmd.run, del]
    split <;> simp
  | incr key =>
    simp only [Cmd.run, incr]
    split
    · simp
    · split <;> simp [overflowerr]
    · simp [wrongtypeerr]
  | smembers key =>
    simp only [Cmd.run, smembers]
    split <;> simp [wrongtypeerr]
  | sadd key member =>
    simp only [Cmd.run, sadd]
    split
    · simp
    · split <;> simp
    · simp [wrongtypeerr]
  | srem key member =>
    simp only [Cmd.run, srem]
    split
    · simp
    · split
      · split <;> simp
      · simp
    · simp [wrongtypeerr]

theorem run_inOrder (c : Cmd) (db : Db) :
    (c.run db).2.inOrder (c.run db).2.elements = some (c.run db).2 := by
  cases h : (c.run db).2 with
  | exec rs => exact absurd h (run_not_exec c db rs)
  | _ =>
    simp only [Reply.inOrder]
    exact listed_elements _

/-- A transaction of one listing and deletions can be answered, too. -/
theorem multi_inOrder (key : Str) (keys : List Str) (db : Db) :
    ∃ order r, ((Txn.multi (.smembers key :: keys.map .del)).run db).2.inOrder order = some r := by
  have deleted : ∀ (order : List Str) (keys : List Str) (db : Db),
      ∃ rs, (runAll (keys.map .del) db).2.mapM (Reply.listed order) = some rs := by
    intro order keys
    induction keys with
    | nil => exact fun db => ⟨[], rfl⟩
    | cons k keys ih =>
      intro db
      obtain ⟨rs, hrs⟩ := ih (del k db).1
      have hk : Reply.listed order (del k db).2 = some (del k db).2 := by
        simp only [del]
        split
        · rfl
        · rfl
      refine ⟨(del k db).2 :: rs, ?_⟩
      simp only [List.map_cons, runAll, Cmd.run, List.mapM_cons, hk, hrs]
      rfl
  obtain ⟨rs, hrs⟩ := deleted (smembers key db).elements keys db
  refine ⟨(smembers key db).elements, .exec ((smembers key db) :: rs), ?_⟩
  have hfirst := listed_elements (smembers key db)
  simp only [Txn.run, Reply.inOrder, runAll, Cmd.run, List.mapM_cons, hfirst, hrs]
  rfl

/-! ### Types of keys -/

inductive Kind where
  | hash
  | set
  | int
  deriving DecidableEq

def Value.kind : Value → Kind
  | .hash _ => .hash
  | .set _ => .set
  | .int _ => .int

/-- The key a command works on. -/
def Cmd.key : Cmd → Option Str
  | .keys _ => none
  | .hgetall key | .hget key _ | .hmset key _ | .del key | .incr key => some key
  | .smembers key | .sadd key _ | .srem key _ => some key

/-- The type a command wants its key to have; `DEL` takes any. -/
def Cmd.kind : Cmd → Option Kind
  | .keys _ | .del _ => none
  | .hgetall _ | .hget _ _ | .hmset _ _ => some .hash
  | .incr _ => some .int
  | .smembers _ | .sadd _ _ | .srem _ _ => some .set

section

variable (type : Str → Kind → Prop)

/-- Every value has the type its key is meant for. -/
def Respects (db : Db) : Prop := ∀ key value, db.get key = some value → type key value.kind

/-- The command is used on a key of its type. -/
def Cmd.Fits (c : Cmd) : Prop := ∀ key kind, c.key = some key → c.kind = some kind → type key kind

variable {type}

theorem Respects.set {db : Db} (h : Respects type db) (key : Str) (value : Value)
    (hk : type key value.kind) : Respects type (db.set key value) := by
  intro k v hv
  rw [Table.get_set] at hv
  split at hv
  · next heq =>
    rw [heq, ← Option.some.inj hv]
    exact hk
  · exact h k v hv

theorem Respects.del {db : Db} (h : Respects type db) (key : Str) : Respects type (db.del key) := by
  intro k v hv
  rw [Table.get_del] at hv
  split at hv
  · cases hv
  · exact h k v hv

theorem run_respects (c : Cmd) (db : Db) (hc : c.Fits type) (h : Respects type db) :
    Respects type (c.run db).1 := by
  cases c with
  | keys pattern | hgetall key | hget key field | smembers key => exact h
  | hmset key fields =>
    have hk := hc key .hash rfl rfl
    simp only [Cmd.run, hmset]
    split
    · exact h.set key _ hk
    · exact h.set key _ hk
    · exact h
  | del key =>
    simp only [Cmd.run, del]
    split
    · exact h
    · exact h.del key
  | incr key =>
    have hk := hc key .int rfl rfl
    simp only [Cmd.run, incr]
    split
    · exact h.set key _ hk
    · split
      · exact h.set key _ hk
      · exact h
    · exact h
  | sadd key member =>
    have hk := hc key .set rfl rfl
    simp only [Cmd.run, sadd]
    split
    · exact h.set key _ hk
    · split
      · exact h
      · exact h.set key _ hk
    · exact h
  | srem key member =>
    have hk := hc key .set rfl rfl
    simp only [Cmd.run, srem]
    split
    · exact h
    · split
      · split
        · exact h.del key
        · exact h.set key _ hk
      · exact h
    · exact h

/-- A command that finds its key missing or of its own type is not turned down
for the type. -/
theorem run_typed (c : Cmd) (db : Db)
    (h : ∀ key kind value, c.key = some key → c.kind = some kind → db.get key = some value →
      value.kind = kind) : (c.run db).2 ≠ wrongtypeerr := by
  intro hw
  cases c with
  | keys pattern => simp [Cmd.run, Store.keys, wrongtypeerr] at hw
  | del key => cases hg : db.get key <;> simp [Cmd.run, del, hg, wrongtypeerr] at hw
  | hgetall key | hget key field | hmset key fields =>
    cases hg : db.get key with
    | none => simp [Cmd.run, hgetall, hget, hmset, hg, wrongtypeerr] at hw
    | some value =>
      have hk := h key .hash value rfl rfl hg
      cases value with
      | hash fs =>
        simp only [Cmd.run, hgetall, hget, hmset, hg] at hw
        first
          | cases hw
          | split at hw <;> cases hw
      | set ms => cases hk
      | int n => cases hk
  | incr key =>
    cases hg : db.get key with
    | none => simp [Cmd.run, incr, hg, wrongtypeerr] at hw
    | some value =>
      have hk := h key .int value rfl rfl hg
      cases value with
      | int n =>
        simp only [Cmd.run, incr, hg] at hw
        split at hw
        · cases hw
        · exact absurd (Reply.error.inj hw) (by decide)
      | set ms => cases hk
      | hash fs => cases hk
  | smembers key | sadd key member | srem key member =>
    cases hg : db.get key with
    | none => simp [Cmd.run, smembers, sadd, srem, hg, wrongtypeerr] at hw
    | some value =>
      have hk := h key .set value rfl rfl hg
      cases value with
      | set ms =>
        simp only [Cmd.run, smembers, sadd, srem, hg] at hw
        repeat' split at hw
        all_goals cases hw
      | hash fs => cases hk
      | int n => cases hk

/-- The commands of a list, each with the keyspace it runs in. -/
def runsAll : List Cmd → Db → List (Cmd × Db)
  | [], _ => []
  | c :: cs, db => (c, db) :: runsAll cs (c.run db).1

def Txn.runs : Txn → Db → List (Cmd × Db)
  | .one c, db => [(c, db)]
  | .multi cs, db => runsAll cs db

def Txn.cmds : Txn → List Cmd
  | .one c => [c]
  | .multi cs => cs

theorem runsAll_respects (cs : List Cmd) (db : Db) (hc : ∀ c ∈ cs, c.Fits type)
    (h : Respects type db) : ∀ a ∈ runsAll cs db, a.1 ∈ cs ∧ Respects type a.2 := by
  induction cs generalizing db with
  | nil =>
    intro a ha
    cases ha
  | cons c cs ih =>
    intro a ha
    rcases List.mem_cons.mp ha with rfl | ha
    · exact ⟨List.mem_cons_self .., h⟩
    · have hrest := ih (c.run db).1 (fun d hd => hc d (List.mem_cons_of_mem _ hd))
        (run_respects c db (hc c (List.mem_cons_self ..)) h) a ha
      exact ⟨List.mem_cons_of_mem _ hrest.1, hrest.2⟩

theorem runs_respects (t : Txn) (db : Db) (hc : ∀ c ∈ t.cmds, c.Fits type)
    (h : Respects type db) : ∀ a ∈ t.runs db, a.1 ∈ t.cmds ∧ Respects type a.2 := by
  cases t with
  | one c =>
    intro a ha
    rw [List.mem_singleton.mp ha]
    exact ⟨List.mem_singleton_self c, h⟩
  | multi cs => exact runsAll_respects cs db hc h

end

end NodeServer.Store

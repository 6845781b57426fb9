import NodeServer.Lib.Store

/-! # Key texts and values of the service (`db/model-keys.js`, `users.js`, `room.js`)

Every Redis key and pattern is a concatenation of one of four family names and
texts that clients choose. -/

namespace NodeServer

/-- Decimal text of a number, as string concatenation writes it. -/
def natText (n : ℕ) : Str := Nat.toDigits 10 n

theorem natText_injective : Function.Injective natText := by
  intro a b h
  have hv := congrArg (fun l => Nat.ofDigitChars 10 l 0) h
  simpa [natText, Nat.ofDigitChars_ten_toDigits] using hv

theorem natText_isDigit (n : ℕ) : ∀ c ∈ natText n, c.isDigit = true :=
  fun _ hc => Nat.isDigit_of_mem_toDigits (b := 10) (by decide) (by decide) hc

/-! ### `DBModelKeys.RedisKey` -/

namespace DBModelKeys

def OnlineUserKey : Str := "OnlineUserKey".toList
def SocketIdKey : Str := "SocketIdKey".toList
def UserIdKey : Str := "UserIdKey".toList
def ConnectTimeKey : Str := "ConnectTimeKey".toList
def LoginTimeKey : Str := "LoginTimeKey".toList
def ServerHostKey : Str := "ServerHostKey".toList
def ServerPortKey : Str := "ServerPortKey".toList
def RoomMaxIdKey : Str := "RoomMaxIdKey".toList
def RoomIdKey : Str := "RoomIdKey".toList
def RoomMemberKey : Str := "RoomMemberKey".toList

end DBModelKeys

open DBModelKeys

/-- `User.userIdPattern` (users.js:48). -/
def userIdPattern (userId : Str) : Str := OnlineUserKey ++ '-' :: (userId ++ ['-', '*'])

/-- `User.uniquePattern` (users.js:52). -/
def uniquePattern (userId socketId : Str) : Str := OnlineUserKey ++ '-' :: (userId ++ '-' :: socketId)

/-- A JavaScript value where the code takes one from a request unchecked. -/
inductive JsVal where
  | undefined
  | null
  | num (n : ℕ)
  | str (s : Str)
  deriving DecidableEq

/-- `Common.isNull` (common.js). -/
def JsVal.isNull : JsVal → Bool
  | .undefined | .null => true
  | _ => false

/-- The text of a value in a concatenation. -/
def JsVal.text : JsVal → Str
  | .undefined => "undefined".toList
  | .null => "null".toList
  | .num n => natText n
  | .str s => s

theorem isNull_not_decimal (roomId : JsVal) (h : roomId.isNull = true) (n : ℕ) :
    roomId.text ≠ natText n := by
  intro heq
  have hu : 'u' ∈ natText n := by
    rw [← heq]
    cases roomId with
    | undefined => decide
    | null => decide
    | num m => cases h
    | str s => cases h
  exact absurd (natText_isDigit n 'u' hu) (by decide)

/-- `Room.roomListPattern` (room.js:27). -/
def roomListPattern : Str := RoomIdKey ++ ['-', '*']

/-- `Room.uniquePattern` (room.js:31), for the text of a room id. -/
def roomPattern (room : Str) : Str := RoomIdKey ++ '-' :: room

/-- `Room.memberPattern` (room.js:35). -/
def memberPattern (room : Str) : Str := RoomMemberKey ++ '-' :: room

/-! ### Generated socket ids (`im-service.js:41`) -/

/-- `Math.random().toString(36).substr(2).toLocaleUpperCase()` leaves digits
and upper case letters. -/
def base36 (suffix : Str) : Bool := suffix.all fun c => c.isDigit || c.isUpper

def socketIdHead : Str := "SOCKETID".toList

def socketIdOf (suffix : Str) : Str := socketIdHead ++ '-' :: suffix

/-- A text the service can generate as a socket id. -/
def IsSocketId (s : Str) : Prop := ∃ suffix, base36 suffix = true ∧ s = socketIdOf suffix

theorem base36_no_dash (suffix : Str) (h : base36 suffix = true) : '-' ∉ suffix := by
  intro hd
  exact absurd (List.all_eq_true.mp h '-' hd) (by decide)

theorem split_last_dash (a a' b b' : Str) (hb : '-' ∉ b) (hb' : '-' ∉ b')
    (h : a ++ '-' :: b = a' ++ '-' :: b') : a = a' ∧ b = b' := by
  have hrev := congrArg List.reverse h
  simp only [List.reverse_append, List.reverse_cons, List.append_assoc, List.cons_append,
    List.nil_append] at hrev
  have key : ∀ (x x' y y' : Str), '-' ∉ x → '-' ∉ x' →
      x ++ '-' :: y = x' ++ '-' :: y' → x = x' ∧ y = y' := by
    intro x
    induction x with
    | nil =>
      intro x' y y' _ hx' he
      cases x' with
      | nil => exact ⟨rfl, (List.cons.inj he).2⟩
      | cons c x' =>
        have hc : '-' = c := (List.cons.inj he).1
        exact absurd (List.mem_cons.mpr (Or.inl hc)) hx'
    | cons c x ih =>
      intro x' y y' hx hx' he
      cases x' with
      | nil =>
        have hc : c = '-' := (List.cons.inj he).1
        exact absurd (List.mem_cons.mpr (Or.inl hc.symm)) hx
      | cons c' x' =>
        obtain ⟨hc, ht⟩ := List.cons.inj he
        obtain ⟨he1, he2⟩ := ih x' y y' (fun hm => hx (List.mem_cons_of_mem _ hm))
          (fun hm => hx' (List.mem_cons_of_mem _ hm)) ht
        exact ⟨by rw [hc, he1], he2⟩
  obtain ⟨h1, h2⟩ := key b.reverse b'.reverse a.reverse a'.reverse
    (by simpa using hb) (by simpa using hb') hrev
  exact ⟨List.reverse_injective h2, List.reverse_injective h1⟩

/-- `uniquePattern` determines the user id and the socket id, although either
may contain the separator: the socket id has a fixed head and no `-` after it. -/
theorem uniquePattern_inj_suffix (u v a b : Str) (ha : '-' ∉ a) (hb : '-' ∉ b)
    (h : uniquePattern u (socketIdOf a) = uniquePattern v (socketIdOf b)) : u = v ∧ a = b := by
  have h1 : u ++ '-' :: socketIdOf a = v ++ '-' :: socketIdOf b := by
    simpa [uniquePattern] using h
  have form : ∀ x c : Str, x ++ '-' :: socketIdOf c = (x ++ '-' :: socketIdHead) ++ '-' :: c := by
    intro x c
    simp only [socketIdOf, List.append_assoc, List.cons_append]
  rw [form u a, form v b] at h1
  obtain ⟨hu, hab⟩ := split_last_dash _ _ _ _ ha hb h1
  exact ⟨List.append_cancel_right hu, hab⟩

theorem uniquePattern_inj (u v s t : Str) (hs : IsSocketId s) (ht : IsSocketId t)
    (h : uniquePattern u s = uniquePattern v t) : u = v ∧ s = t := by
  obtain ⟨a, ha, rfl⟩ := hs
  obtain ⟨b, hb, rfl⟩ := ht
  obtain ⟨hu, hab⟩ := uniquePattern_inj_suffix u v a b (base36_no_dash a ha) (base36_no_dash b hb) h
  exact ⟨hu, by rw [hab]⟩

/-! ### The families are disjoint -/

theorem stems_disjoint (k : ℕ) (a b x y : Str) (ha : k ≤ a.length) (hb : k ≤ b.length)
    (hne : a.take k ≠ b.take k) : a ++ x ≠ b ++ y := by
  intro h
  have ht := congrArg (List.take k) h
  rw [List.take_append_of_le_length ha, List.take_append_of_le_length hb] at ht
  exact hne ht

theorem uniquePattern_ne_roomPattern (u s r : Str) : uniquePattern u s ≠ roomPattern r :=
  stems_disjoint 1 _ _ _ _ (by decide) (by decide) (by decide)

theorem uniquePattern_ne_memberPattern (u s r : Str) : uniquePattern u s ≠ memberPattern r :=
  stems_disjoint 1 _ _ _ _ (by decide) (by decide) (by decide)

theorem uniquePattern_ne_maxId (u s : Str) : uniquePattern u s ≠ RoomMaxIdKey := by
  have h := stems_disjoint 1 OnlineUserKey RoomMaxIdKey ('-' :: (u ++ '-' :: s)) []
    (by decide) (by decide) (by decide)
  simpa [uniquePattern] using h

theorem roomPattern_ne_memberPattern (r t : Str) : roomPattern r ≠ memberPattern t :=
  stems_disjoint 5 _ _ _ _ (by decide) (by decide) (by decide)

theorem roomPattern_ne_maxId (r : Str) : roomPattern r ≠ RoomMaxIdKey := by
  have h := stems_disjoint 5 RoomIdKey RoomMaxIdKey ('-' :: r) [] (by decide) (by decide) (by decide)
  simpa [roomPattern] using h

theorem memberPattern_ne_maxId (r : Str) : memberPattern r ≠ RoomMaxIdKey := by
  have h := stems_disjoint 6 RoomMemberKey RoomMaxIdKey ('-' :: r) []
    (by decide) (by decide) (by decide)
  simpa [memberPattern] using h

theorem roomPattern_inj (r t : Str) : roomPattern r = roomPattern t ↔ r = t := by
  simp [roomPattern]

theorem memberPattern_inj (r t : Str) : memberPattern r = memberPattern t ↔ r = t := by
  simp [memberPattern]

/-! ### What the patterns match -/

theorem plain_of_alphanum (u : Str) (h : ∀ c ∈ u, c.isAlphanum = true) : Glob.plain u := by
  intro c hc
  have ha := h c hc
  simp only [Glob.plainChar, decide_eq_true_eq]
  refine ⟨?_, ?_, ?_, ?_⟩ <;> rintro rfl <;> exact absurd ha (by decide)

theorem plain_natText (n : ℕ) : Glob.plain (natText n) :=
  plain_of_alphanum _ fun c hc => by simp [Char.isAlphanum, natText_isDigit n c hc]

theorem userIdPattern_self (u s : Str) (hu : Glob.plain u) :
    Glob.stringmatch (userIdPattern u) (uniquePattern u s) = true := by
  have hl : Glob.plain (OnlineUserKey ++ '-' :: (u ++ ['-'])) := by
    intro c hc
    simp only [List.mem_append, List.mem_cons, List.not_mem_nil, or_false] at hc
    rcases hc with hc | rfl | hc | rfl
    · exact (by decide : Glob.plain OnlineUserKey) c hc
    · decide
    · exact hu c hc
    · decide
  have hform : userIdPattern u = (OnlineUserKey ++ '-' :: (u ++ ['-'])) ++ ['*'] := by
    simp [userIdPattern]
  rw [hform, Glob.stringmatch_stem_star _ _ hl]
  exact ⟨s, by simp [uniquePattern]⟩

/-- Whatever a client puts into a user id, its lookup pattern stays inside the
family of online records. -/
theorem userIdPattern_family (u k : Str) (h : Glob.stringmatch (userIdPattern u) k = true) :
    (OnlineUserKey ++ ['-']) <+: k := by
  have hform : userIdPattern u = (OnlineUserKey ++ ['-']) ++ (u ++ ['-', '*']) := by
    simp [userIdPattern]
  rw [hform, Glob.stringmatch_stem _ _ _ (by decide)] at h
  obtain ⟨t, rfl, _⟩ := h
  exact List.prefix_append _ _

theorem roomPattern_decimal (n : ℕ) (k : Str) :
    Glob.stringmatch (roomPattern (natText n)) k = true ↔ k = roomPattern (natText n) := by
  apply Glob.stringmatch_plain
  intro c hc
  simp only [roomPattern, List.mem_append, List.mem_cons] at hc
  rcases hc with hc | rfl | hc
  · exact (by decide : Glob.plain RoomIdKey) c hc
  · decide
  · exact plain_natText n c hc

theorem roomListPattern_iff (k : Str) :
    Glob.stringmatch roomListPattern k = true ↔ (RoomIdKey ++ ['-']) <+: k := by
  have hform : roomListPattern = (RoomIdKey ++ ['-']) ++ ['*'] := by simp [roomListPattern]
  rw [hform, Glob.stringmatch_stem_star _ _ (by decide)]

end NodeServer

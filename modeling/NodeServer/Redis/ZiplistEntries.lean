import NodeServer.Redis.Ziplist
import Mathlib.Data.Nat.Bitwise

/-! # The entries of a ziplist

What an entry looks like in memory, and that reading it gives the text it was made of. -/

namespace NodeServer.Redis

open Bytes

/-! ### Texts -/

/- Every character is one byte. -/
def ByteText (s : Str) : Prop := ∀ c ∈ s, c.toNat < 256

instance (s : Str) : Decidable (ByteText s) := inferInstanceAs (Decidable (∀ c ∈ s, c.toNat < 256))

theorem bytesOf_length (s : Str) : (bytesOf s).length = s.length := List.length_map ..

theorem textOf_bytesOf {s : Str} (hs : ByteText s) : textOf (bytesOf s) = s := by
  unfold textOf bytesOf
  rw [List.map_map]
  conv_rhs => rw [← List.map_id s]
  apply List.map_congr_left
  intro c hc
  have hlt := hs c hc
  simp only [Function.comp_apply, id_eq, UInt8.toNat_ofNat', Nat.mod_eq_of_lt hlt, Char.ofNat_toNat]

theorem bytesOf_inj {s t : Str} (hs : ByteText s) (ht : ByteText t) (h : bytesOf s = bytesOf t) :
    s = t := by
  rw [← textOf_bytesOf hs, h, textOf_bytesOf ht]

namespace Ziplist

/-! ### Bits -/

theorem and_mask {x : ℕ} (hx : x < 256) : x &&& 0xc0 = x / 64 * 64 := by
  have h : ∀ i : Fin 256, i.val &&& 0xc0 = i.val / 64 * 64 := by decide +kernel
  exact h ⟨x, hx⟩

theorem and_low (x : ℕ) : x &&& 0x3f = x % 64 := Nat.and_two_pow_sub_one_eq_mod x 6

theorem and_byte (x : ℕ) : x &&& 0xff = x % 256 := Nat.and_two_pow_sub_one_eq_mod x 8

theorem byte_toNat {x : ℕ} (hx : x < 256) : (UInt8.ofNat x).toNat = x := by
  rw [UInt8.toNat_ofNat', Nat.mod_eq_of_lt hx]

theorem shiftLeft_or {a b i : ℕ} (hb : b < 2 ^ i) : a <<< i ||| b = a * 2 ^ i + b := by
  rw [← Nat.shiftLeft_add_eq_or_of_lt hb, Nat.shiftLeft_eq]

/- Four bytes from the highest to the lowest. -/
theorem bigEndian {len : ℕ} (hlen : len < 2 ^ 32) :
    (len >>> 24 &&& 0xff) <<< 24 ||| (len >>> 16 &&& 0xff) <<< 16 ||| (len >>> 8 &&& 0xff) <<< 8 |||
      (len &&& 0xff) = len := by
  simp only [Nat.or_assoc, and_byte, Nat.shiftRight_eq_div_pow]
  have h1 : (len / 2 ^ 8 % 256) <<< 8 ||| len % 256 = len % 2 ^ 16 := by
    rw [shiftLeft_or (by omega)]
    omega
  have h2 : (len / 2 ^ 16 % 256) <<< 16 ||| len % 2 ^ 16 = len % 2 ^ 24 := by
    rw [shiftLeft_or (by omega)]
    omega
  rw [h1, h2, shiftLeft_or (by omega)]
  omega

/-! ### Reading behind a prefix -/

section

variable {pre post : Buf} {p : ℕ}

theorem byteAt_append (hp : p = pre.length) (b : UInt8) :
    byteAt (pre ++ b :: post) p = some b.toNat := by
  subst hp
  simp [byteAt]

theorem byteAt_mid {mid : Buf} {i : ℕ} (hp : p = pre.length + i) (hi : i < mid.length) :
    byteAt (pre ++ mid ++ post) p = mid[i]?.map UInt8.toNat := by
  subst hp
  unfold byteAt
  rw [List.append_assoc, List.getElem?_append_right (Nat.le_add_right _ _), Nat.add_sub_cancel_left,
    List.getElem?_append_left hi]

end

/-! ### Integers -/

/- What is known about the encoding of a value and its bytes. -/
structure KeepsInteger (v : ℤ) (encoding : ℕ) (payload : Buf) : Prop where
  notStr : isStr encoding = false
  high : ZIP_STR_MASK ≤ encoding
  small : encoding < 256
  size : zipIntSize encoding = some payload.length
  saves : integerBytes v encoding = some payload
  loads : ∀ (pre post : Buf) (p : ℕ), p = pre.length →
    loadInteger (pre ++ payload ++ post) p encoding = some v

theorem ofInt_shifted (v : ℤ) : (ofInt 4 (v * 2 ^ 8)).drop 1 = ofInt 3 v := by
  have hdiv : v * 2 ^ 8 / 256 = v := by omega
  rw [ofInt, List.drop_one, List.tail_cons, hdiv]

theorem ofInt_low (v : ℤ) : 0 :: ofInt 3 v = ofInt 4 (v * 2 ^ 8) := by
  have hdiv : v * 2 ^ 8 / 256 = v := by omega
  have hmod : v * 2 ^ 8 % 256 = 0 := by omega
  conv_rhs => rw [ofInt, hdiv, hmod]
  rfl

/- The encodings that keep all bytes of the value. -/
theorem keepsInteger_plain {v : ℤ} {w encoding : ℕ} (hstr : isStr encoding = false)
    (hhigh : ZIP_STR_MASK ≤ encoding) (hsmall : encoding < 256) (hsize : zipIntSize encoding = some w)
    (hsave : integerBytes v encoding = some (ofInt w v))
    (hload : ∀ zl p, loadInteger zl p encoding = (load zl p w).map toInt) (hfits : Fits w v) :
    KeepsInteger v encoding (ofInt w v) := by
  refine ⟨hstr, hhigh, hsmall, ?_, hsave, ?_⟩
  · rw [hsize, ofInt_length]
  · intro pre post p hp
    rw [hload, load_append hp (ofInt_length w v).symm, Option.map_some, toInt_ofInt hfits]

theorem keepsInteger_24 {v : ℤ} (hfits : Fits 3 v) : KeepsInteger v ZIP_INT_24B (ofInt 3 v) := by
  have hfits' : Fits 4 (v * 2 ^ 8) := by
    obtain ⟨hlo, hhi⟩ := hfits
    exact ⟨by omega, by omega⟩
  refine ⟨by decide, by decide, by decide, ?_, ?_, ?_⟩
  · rw [ofInt_length]
    rfl
  · rw [← ofInt_shifted]
    rfl
  · intro pre post p hp
    change (load _ p 3).map (fun bs => toInt (0 :: bs) / 2 ^ 8) = some v
    rw [load_append hp (ofInt_length 3 v).symm, Option.map_some, ofInt_low, toInt_ofInt hfits']
    congr 1
    omega

/- A small value is a part of its encoding. -/
theorem keepsInteger_imm {v : ℤ} (hlo : 0 ≤ v) (hhi : v ≤ 12) :
    KeepsInteger v (ZIP_INT_IMM_MIN + v.toNat) [] := by
  obtain ⟨n, rfl⟩ := Int.eq_ofNat_of_zero_le hlo
  have hn : n ≤ 12 := by omega
  rw [Int.toNat_natCast]
  refine ⟨?_, ?_, ?_, ?_, ?_, ?_⟩
  all_goals unfold ZIP_INT_IMM_MIN
  · interval_cases n <;> rfl
  · unfold ZIP_STR_MASK
    omega
  · omega
  · interval_cases n <;> rfl
  · interval_cases n <;> rfl
  · intro pre post p hp
    interval_cases n <;> rfl

/-- Every value is kept in the encoding that was chosen for it. -/
theorem keepsInteger {v : ℤ} (hv : IsLongLong v) :
    ∃ payload, KeepsInteger v (integerEncoding v) payload := by
  unfold IsLongLong LLONG_MIN LLONG_MAX at hv
  unfold integerEncoding
  split_ifs with h0 h8 h16 h24 h32
  · exact ⟨[], keepsInteger_imm h0.1 h0.2⟩
  · exact ⟨_, keepsInteger_plain (w := 1) rfl (by decide) (by decide) rfl rfl (fun _ _ => rfl)
      ⟨by omega, by omega⟩⟩
  · exact ⟨_, keepsInteger_plain (w := 2) rfl (by decide) (by decide) rfl rfl (fun _ _ => rfl)
      ⟨by omega, by omega⟩⟩
  · exact ⟨_, keepsInteger_24 ⟨by omega, by omega⟩⟩
  · exact ⟨_, keepsInteger_plain (w := 4) rfl (by decide) (by decide) rfl rfl (fun _ _ => rfl)
      ⟨by omega, by omega⟩⟩
  · exact ⟨_, keepsInteger_plain (w := 8) rfl (by decide) (by decide) rfl rfl (fun _ _ => rfl)
      ⟨by omega, by omega⟩⟩

/-! ### The content of an entry -/

def header (s : Str) : Buf := ((contentBytes s).getD ([], [])).1

def payload (s : Str) : Buf := ((contentBytes s).getD ([], [])).2

def encodingOf (s : Str) : ℕ :=
  match zipTryEncoding s with
  | some (_, encoding) => encoding
  | none =>
    if s.length ≤ 0x3f then ZIP_STR_06B
    else if s.length ≤ 0x3fff then ZIP_STR_14B
    else ZIP_STR_32B

section

variable {s : Str} {v : ℤ} {encoding : ℕ}

theorem zipTryEncoding_some (h : zipTryEncoding s = some (v, encoding)) :
    string2ll s = some v ∧ encoding = integerEncoding v := by
  unfold zipTryEncoding at h
  split at h
  · cases h
  · obtain ⟨w, hw, heq⟩ := Option.map_eq_some_iff.mp h
    cases heq
    exact ⟨hw, rfl⟩

/-- A text that can be read as an integer is kept as one. -/
theorem content_int (h : zipTryEncoding s = some (v, encoding)) :
    contentBytes s = some (header s, payload s) ∧ header s = [UInt8.ofNat encoding] ∧
      KeepsInteger v encoding (payload s) := by
  obtain ⟨hread, rfl⟩ := zipTryEncoding_some h
  obtain ⟨bs, hkeeps⟩ := keepsInteger ((string2ll_iff s v).mp hread).1
  have hbytes : contentBytes s = some (encodingBytes (integerEncoding v) s.length, bs) := by
    simp only [contentBytes, h, hkeeps.saves, Option.map_some]
  have hheader : encodingBytes (integerEncoding v) s.length = [UInt8.ofNat (integerEncoding v)] := by
    unfold encodingBytes
    rw [hkeeps.notStr]
    rfl
  unfold header payload
  rw [hbytes]
  exact ⟨rfl, hheader, hkeeps⟩

/-- Every other text is kept as it is. -/
theorem content_str (h : zipTryEncoding s = none) :
    contentBytes s = some (header s, payload s) ∧ header s = encodingBytes 0 s.length ∧
      payload s = bytesOf s := by
  have hbytes : contentBytes s = some (encodingBytes 0 s.length, bytesOf s) := by
    simp only [contentBytes, h]
  unfold header payload
  rw [hbytes]
  exact ⟨rfl, rfl, rfl⟩

theorem contentBytes_eq (s : Str) : contentBytes s = some (header s, payload s) := by
  cases h : zipTryEncoding s with
  | none => exact (content_str h).1
  | some e => exact (content_int h).1

theorem decodeLength_int {pre post : Buf} {p n : ℕ} (hp : p = pre.length) (hsmall : encoding < 256)
    (hhigh : ZIP_STR_MASK ≤ encoding) (hsize : zipIntSize encoding = some n) :
    decodeLength (pre ++ [UInt8.ofNat encoding] ++ post) p = some (encoding, 1, n) := by
  have hbyte : byteAt (pre ++ [UInt8.ofNat encoding] ++ post) p = some encoding := by
    rw [List.append_assoc, List.singleton_append, byteAt_append hp, byte_toNat hsmall]
  unfold decodeLength
  rw [hbyte, Option.bind_some]
  simp only [if_neg (Nat.not_lt.mpr hhigh), hsize, Option.map_some]

section

variable {pre post : Buf} {p n : ℕ}

theorem decodeLength_06 (hp : p = pre.length) (hn : n ≤ 0x3f) :
    decodeLength (pre ++ [UInt8.ofNat (ZIP_STR_06B ||| n)] ++ post) p = some (ZIP_STR_06B, 1, n) := by
  have hbyte : byteAt (pre ++ [UInt8.ofNat (ZIP_STR_06B ||| n)] ++ post) p = some n := by
    rw [List.append_assoc, List.singleton_append, byteAt_append hp, ZIP_STR_06B, Nat.zero_or,
      byte_toNat (by omega)]
  have hclass : n &&& ZIP_STR_MASK = ZIP_STR_06B := by
    rw [ZIP_STR_MASK, and_mask (by omega), ZIP_STR_06B]
    omega
  have hlt : n < ZIP_STR_MASK := by
    rw [ZIP_STR_MASK]
    omega
  unfold decodeLength
  rw [hbyte, Option.bind_some]
  simp only [if_pos hlt, hclass]
  rw [if_pos (by decide), if_pos trivial, and_low, Nat.mod_eq_of_lt (by omega)]

theorem decodeLength_14 (hp : p = pre.length) (hn : n ≤ 0x3fff) :
    decodeLength (pre ++ [UInt8.ofNat (ZIP_STR_14B ||| ((n >>> 8) &&& 0x3f)), UInt8.ofNat (n &&& 0xff)] ++
      post) p = some (ZIP_STR_14B, 2, n) := by
  have hfirst : ZIP_STR_14B ||| ((n >>> 8) &&& 0x3f) = 64 + n / 256 := by
    rw [and_low, Nat.shiftRight_eq_div_pow, Nat.mod_eq_of_lt (by omega)]
    exact (Nat.two_pow_add_eq_or_of_lt (i := 6) (by omega) 1).symm
  have hbyte : byteAt (pre ++ [UInt8.ofNat (ZIP_STR_14B ||| ((n >>> 8) &&& 0x3f)),
      UInt8.ofNat (n &&& 0xff)] ++ post) p = some (64 + n / 256) := by
    rw [byteAt_mid (i := 0) hp (by simp), List.getElem?_cons_zero, Option.map_some, hfirst,
      byte_toNat (by omega)]
  have hbyte' : byteAt (pre ++ [UInt8.ofNat (ZIP_STR_14B ||| ((n >>> 8) &&& 0x3f)),
      UInt8.ofNat (n &&& 0xff)] ++ post) (p + 1) = some (n % 256) := by
    rw [byteAt_mid (i := 1) (by omega) (by simp), List.getElem?_cons_succ, List.getElem?_cons_zero,
      Option.map_some, and_byte, byte_toNat (by omega)]
  have hclass : 64 + n / 256 &&& ZIP_STR_MASK = ZIP_STR_14B := by
    rw [ZIP_STR_MASK, and_mask (by omega), ZIP_STR_14B]
    omega
  have hlt : 64 + n / 256 < ZIP_STR_MASK := by
    rw [ZIP_STR_MASK]
    omega
  unfold decodeLength
  rw [hbyte, hbyte', Option.bind_some]
  simp only [if_pos hlt, hclass]
  rw [if_pos (by decide), if_neg (by decide), if_pos trivial, Option.map_some, and_low,
    shiftLeft_or (by omega)]
  congr 3
  omega

theorem decodeLength_32 (hp : p = pre.length) (hn : n < 2 ^ 32) :
    decodeLength (pre ++ [UInt8.ofNat ZIP_STR_32B, UInt8.ofNat ((n >>> 24) &&& 0xff),
      UInt8.ofNat ((n >>> 16) &&& 0xff), UInt8.ofNat ((n >>> 8) &&& 0xff), UInt8.ofNat (n &&& 0xff)] ++
      post) p = some (ZIP_STR_32B, 5, n) := by
  set mid : Buf := [UInt8.ofNat ZIP_STR_32B, UInt8.ofNat ((n >>> 24) &&& 0xff),
    UInt8.ofNat ((n >>> 16) &&& 0xff), UInt8.ofNat ((n >>> 8) &&& 0xff), UInt8.ofNat (n &&& 0xff)]
    with hmid
  have hbyte : ∀ x : ℕ, (UInt8.ofNat (x &&& 0xff)).toNat = x &&& 0xff := by
    intro x
    rw [and_byte]
    exact byte_toNat (Nat.mod_lt _ (by decide))
  have h0 : byteAt (pre ++ mid ++ post) p = some ZIP_STR_32B := byteAt_mid (i := 0) hp (by simp [hmid])
  have h1 : byteAt (pre ++ mid ++ post) (p + 1) = some ((n >>> 24) &&& 0xff) := by
    rw [byteAt_mid (i := 1) (by omega) (by simp [hmid]), ← hbyte]
    rfl
  have h2 : byteAt (pre ++ mid ++ post) (p + 2) = some ((n >>> 16) &&& 0xff) := by
    rw [byteAt_mid (i := 2) (by omega) (by simp [hmid]), ← hbyte]
    rfl
  have h3 : byteAt (pre ++ mid ++ post) (p + 3) = some ((n >>> 8) &&& 0xff) := by
    rw [byteAt_mid (i := 3) (by omega) (by simp [hmid]), ← hbyte]
    rfl
  have h4 : byteAt (pre ++ mid ++ post) (p + 4) = some (n &&& 0xff) := by
    rw [byteAt_mid (i := 4) (by omega) (by simp [hmid]), ← hbyte]
    rfl
  unfold decodeLength
  rw [h0, h1, h2, h3, h4, Option.bind_some]
  simp only [Option.bind_eq_bind, Option.bind_some, bigEndian hn]
  rfl

/-- The three forms of a length. -/
theorem decodeLength_str (hp : p = pre.length) (hn : n < 2 ^ 32) :
    decodeLength (pre ++ encodingBytes 0 n ++ post) p =
      some (if n ≤ 0x3f then ZIP_STR_06B else if n ≤ 0x3fff then ZIP_STR_14B else ZIP_STR_32B,
        (encodingBytes 0 n).length, n) := by
  unfold encodingBytes
  rw [if_pos (by decide)]
  split_ifs with h6 h14
  · exact decodeLength_06 hp h6
  · exact decodeLength_14 hp h14
  · exact decodeLength_32 hp hn

/-- Reading the length of an entry back. -/
theorem decodeLength_header {s : Str} (hp : p = pre.length) (hs : s.length < 2 ^ 32) :
    decodeLength (pre ++ header s ++ post) p =
      some (encodingOf s, (header s).length, (payload s).length) := by
  cases h : zipTryEncoding s with
  | none =>
    obtain ⟨-, hheader, hpayload⟩ := content_str h
    simp only [encodingOf, h]
    rw [hheader, hpayload, bytesOf_length]
    exact decodeLength_str hp hs
  | some e =>
    obtain ⟨-, hheader, hkeeps⟩ := content_int h
    simp only [encodingOf, h]
    rw [hheader]
    exact decodeLength_int hp hkeeps.small hkeeps.high hkeeps.size

end

end

/-! ### An entry in memory -/

/- A text, and whether the length of the entry before it has five bytes. -/
structure Entry where
  large : Bool
  text : Str

namespace Entry

def prevSize (e : Entry) : ℕ := if e.large then 5 else 1

def rawlen (e : Entry) : ℕ := e.prevSize + (header e.text).length + (payload e.text).length

def prevField (e : Entry) (prev : ℕ) : Buf :=
  if e.large then prevlenBytesLarge prev else [UInt8.ofNat prev]

def bytes (e : Entry) (prev : ℕ) : Buf := e.prevField prev ++ (header e.text ++ payload e.text)

/- The entry has room for the length of the one before it. -/
structure Ok (e : Entry) (prev : ℕ) : Prop where
  room : e.large = false → prev < ZIP_BIG_PREVLEN
  word : prev < 2 ^ 32
  short : e.text.length < 2 ^ 32

end Entry

section

variable {e : Entry} {prev p : ℕ} {pre post : Buf}

@[simp] theorem prevField_length (e : Entry) (prev : ℕ) : (e.prevField prev).length = e.prevSize := by
  unfold Entry.prevField Entry.prevSize
  split
  · simp [prevlenBytesLarge]
  · rfl

@[simp] theorem bytes_length (e : Entry) (prev : ℕ) : (e.bytes prev).length = e.rawlen := by
  simp only [Entry.bytes, Entry.rawlen, List.length_append, prevField_length, Nat.add_assoc]

theorem header_pos (s : Str) : 0 < (header s).length := by
  cases h : zipTryEncoding s with
  | some e =>
    rw [(content_int h).2.1]
    exact Nat.one_pos
  | none =>
    rw [(content_str h).2.1, encodingBytes, if_pos (by decide)]
    split_ifs <;> simp

theorem rawlen_pos (e : Entry) : 2 ≤ e.rawlen := by
  have hheader := header_pos e.text
  unfold Entry.rawlen Entry.prevSize
  split <;> omega

theorem decodePrevlen_field (h : e.Ok prev) (hp : p = pre.length) :
    decodePrevlen (pre ++ e.prevField prev ++ post) p = some (e.prevSize, prev) := by
  unfold decodePrevlen Entry.prevField Entry.prevSize
  cases hlarge : e.large with
  | false =>
    have hlt := h.room hlarge
    rw [if_neg Bool.false_ne_true, if_neg Bool.false_ne_true, List.append_assoc, List.singleton_append,
      byteAt_append hp, Option.bind_some, byte_toNat (by unfold ZIP_BIG_PREVLEN at hlt; omega),
      if_pos hlt]
  | true =>
    have hload : load (pre ++ prevlenBytesLarge prev ++ post) (p + 1) 4 = some (ofInt 4 prev) := by
      have hsplit : pre ++ prevlenBytesLarge prev ++ post =
          (pre ++ [UInt8.ofNat ZIP_BIG_PREVLEN]) ++ ofInt 4 prev ++ post := by
        simp [prevlenBytesLarge]
      rw [hsplit]
      exact load_append (by simp [hp]) (ofInt_length 4 _).symm
    have hvalue := toNat_ofInt 4 prev
    have hword := h.word
    rw [if_pos rfl, if_pos rfl, byteAt_mid (i := 0) (by omega) (by simp [prevlenBytesLarge])]
    change (some 254).bind _ = _
    rw [Option.bind_some, if_neg (by decide), hload, Option.map_some]
    congr 2
    omega

theorem decodePrevlensize_field (h : e.Ok prev) (hp : p = pre.length) :
    decodePrevlensize (pre ++ e.prevField prev ++ post) p = some e.prevSize := by
  have hdecode : decodePrevlen (pre ++ e.prevField prev ++ post) p = _ := decodePrevlen_field h hp
  unfold decodePrevlen at hdecode
  unfold decodePrevlensize
  obtain ⟨first, hfirst, hrest⟩ := Option.bind_eq_some_iff.mp hdecode
  rw [hfirst, Option.map_some]
  split_ifs at hrest ⊢ with hlt
  · exact congrArg some (Prod.ext_iff.mp (Option.some.inj hrest)).1
  · obtain ⟨bs, -, hbs⟩ := Option.map_eq_some_iff.mp hrest
    exact congrArg some (Prod.ext_iff.mp hbs).1

/- The first byte of an entry is not that of the end. -/
theorem byteAt_entry (h : e.Ok prev) (hp : p = pre.length) :
    ∃ first, byteAt (pre ++ e.bytes prev ++ post) p = some first ∧ first ≠ ZIP_END := by
  unfold Entry.bytes Entry.prevField
  cases hlarge : e.large with
  | false =>
    have hlt := h.room hlarge
    unfold ZIP_BIG_PREVLEN at hlt
    refine ⟨prev, ?_, by unfold ZIP_END; omega⟩
    rw [if_neg Bool.false_ne_true, byteAt_mid (i := 0) (by omega) (by simp)]
    change some (UInt8.ofNat prev).toNat = some prev
    rw [byte_toNat (by omega)]
  | true =>
    refine ⟨254, ?_, by decide⟩
    rw [if_pos rfl, byteAt_mid (i := 0) (by omega) (by simp [prevlenBytesLarge])]
    rfl

def Entry.zlentry (e : Entry) (prev : ℕ) : Zlentry :=
  ⟨e.prevSize, prev, (header e.text).length, (payload e.text).length, encodingOf e.text⟩

theorem zlentry_rawlen (e : Entry) (prev : ℕ) :
    (e.zlentry prev).headersize + (e.zlentry prev).len = e.rawlen := rfl

/- The entry, cut behind its first field. -/
theorem entry_split (e : Entry) (prev : ℕ) (pre post : Buf) :
    pre ++ e.bytes prev ++ post =
      (pre ++ e.prevField prev) ++ header e.text ++ (payload e.text ++ post) := by
  simp only [Entry.bytes, List.append_assoc]

theorem decodeLength_entry (h : e.Ok prev) (hp : p = pre.length) :
    decodeLength (pre ++ e.bytes prev ++ post) (p + e.prevSize) =
      some (encodingOf e.text, (header e.text).length, (payload e.text).length) := by
  rw [entry_split]
  exact decodeLength_header (by simp [hp]) h.short

theorem decodePrevlen_entry (h : e.Ok prev) (hp : p = pre.length) :
    decodePrevlen (pre ++ e.bytes prev ++ post) p = some (e.prevSize, prev) := by
  rw [Entry.bytes, ← List.append_assoc, List.append_assoc (pre ++ _)]
  exact decodePrevlen_field h hp

theorem decodePrevlensize_entry (h : e.Ok prev) (hp : p = pre.length) :
    decodePrevlensize (pre ++ e.bytes prev ++ post) p = some e.prevSize := by
  rw [Entry.bytes, ← List.append_assoc, List.append_assoc (pre ++ _)]
  exact decodePrevlensize_field h hp

theorem zipEntry_entry (h : e.Ok prev) (hp : p = pre.length) :
    zipEntry (pre ++ e.bytes prev ++ post) p = some (e.zlentry prev) := by
  unfold zipEntry
  rw [decodePrevlen_entry h hp, Option.bind_some]
  dsimp only
  rw [decodeLength_entry h hp, Option.map_some]
  rfl

theorem rawEntryLength_entry (h : e.Ok prev) (hp : p = pre.length) :
    rawEntryLength (pre ++ e.bytes prev ++ post) p = some e.rawlen := by
  unfold rawEntryLength
  rw [decodePrevlensize_entry h hp, Option.bind_some, decodeLength_entry h hp, Option.map_some]
  rfl

end

end Ziplist

end NodeServer.Redis

import NodeServer.Redis.ZiplistEntries

/-! # The layout of a ziplist

A ziplist as its header, its entries, each with the length of the one before it, and the
byte at its end. -/

namespace NodeServer.Redis.Ziplist

open Bytes

/-! ### The header -/

def headerBytes (total tail count : ℤ) : Buf := ofInt 4 total ++ ofInt 4 tail ++ ofInt 2 count

section

variable {total tail count : ℤ} {rest : Buf}

@[simp] theorem headerBytes_length (total tail count : ℤ) :
    (headerBytes total tail count).length = 10 := by
  simp [headerBytes]

theorem toNat_ofInt_of_lt {w : ℕ} {v : ℤ} (hlo : 0 ≤ v) (hhi : v < 256 ^ w) :
    toNat (ofInt w v) = v.toNat := by
  have hvalue := toNat_ofInt w v
  rw [Int.emod_eq_of_lt hlo hhi] at hvalue
  omega

theorem bytes_header (hlo : 0 ≤ total) (hhi : total < 2 ^ 32) :
    bytes (headerBytes total tail count ++ rest) = some total.toNat := by
  have hload : load (headerBytes total tail count ++ rest) 0 4 = some (ofInt 4 total) := by
    have hsplit : headerBytes total tail count ++ rest =
        [] ++ ofInt 4 total ++ (ofInt 4 tail ++ (ofInt 2 count ++ rest)) := by
      simp [headerBytes]
    rw [hsplit]
    exact load_append rfl (ofInt_length 4 _).symm
  rw [bytes, hload, Option.map_some, toNat_ofInt_of_lt hlo (by simpa using hhi)]

theorem tailOffset_header (hlo : 0 ≤ tail) (hhi : tail < 2 ^ 32) :
    tailOffset (headerBytes total tail count ++ rest) = some tail.toNat := by
  have hload : load (headerBytes total tail count ++ rest) 4 4 = some (ofInt 4 tail) := by
    have hsplit : headerBytes total tail count ++ rest =
        ofInt 4 total ++ ofInt 4 tail ++ (ofInt 2 count ++ rest) := by
      simp [headerBytes]
    rw [hsplit]
    exact load_append (ofInt_length 4 _).symm (ofInt_length 4 _).symm
  rw [tailOffset, hload, Option.map_some, toNat_ofInt_of_lt hlo (by simpa using hhi)]

theorem length_header (hlo : 0 ≤ count) (hhi : count < 2 ^ 16) :
    length (headerBytes total tail count ++ rest) = some count.toNat := by
  have hload : load (headerBytes total tail count ++ rest) 8 2 = some (ofInt 2 count) := by
    have hsplit : headerBytes total tail count ++ rest =
        (ofInt 4 total ++ ofInt 4 tail) ++ ofInt 2 count ++ rest := by
      simp [headerBytes]
    rw [hsplit]
    exact load_append (by simp) (ofInt_length 2 _).symm
  rw [length, hload, Option.map_some, toNat_ofInt_of_lt hlo (by simpa using hhi)]

theorem setBytes_header (n : ℤ) :
    setBytes (headerBytes total tail count ++ rest) n = some (headerBytes n tail count ++ rest) := by
  have hsplit : ∀ m, headerBytes m tail count ++ rest =
      [] ++ ofInt 4 m ++ (ofInt 4 tail ++ (ofInt 2 count ++ rest)) := by
    intro m
    simp [headerBytes]
  rw [setBytes, hsplit, hsplit]
  exact store_append rfl (by simp)

theorem setTailOffset_header (n : ℤ) :
    setTailOffset (headerBytes total tail count ++ rest) n =
      some (headerBytes total n count ++ rest) := by
  have hsplit : ∀ m, headerBytes total m count ++ rest =
      ofInt 4 total ++ ofInt 4 m ++ (ofInt 2 count ++ rest) := by
    intro m
    simp [headerBytes]
  rw [setTailOffset, hsplit, hsplit, store_append (ofInt_length 4 _).symm (by simp)]

theorem setLength_header (n : ℤ) :
    setLength (headerBytes total tail count ++ rest) n =
      some (headerBytes total tail n ++ rest) := by
  have hsplit : ∀ m, headerBytes total tail m ++ rest =
      (ofInt 4 total ++ ofInt 4 tail) ++ ofInt 2 m ++ rest := by
    intro m
    simp [headerBytes]
  rw [setLength, hsplit, hsplit, store_append (by simp) (by simp)]

theorem incrLength_header (incr : ℤ) (hlo : 0 ≤ count) (hhi : count < UINT16_MAX) :
    incrLength (headerBytes total tail count ++ rest) incr =
      some (headerBytes total tail (count + incr) ++ rest) := by
  have hcount : ((count.toNat : ℕ) : ℤ) = count := by omega
  unfold incrLength
  rw [length_header hlo (by unfold UINT16_MAX at hhi; omega), Option.bind_some,
    if_pos (by omega), setLength_header, hcount]

theorem shiftTail_header (moves : Bool) (n : ℤ) (hlo : 0 ≤ tail) (hhi : tail < 2 ^ 32) :
    shiftTail (headerBytes total tail count ++ rest) moves n =
      some (headerBytes total (if moves then tail + n else tail) count ++ rest) := by
  have htail : ((tail.toNat : ℕ) : ℤ) = tail := by omega
  unfold shiftTail
  rw [tailOffset_header hlo hhi, Option.bind_some]
  cases moves
  · rfl
  · rw [if_pos rfl, if_pos rfl, setTailOffset_header, htail]

end

/-! ### Entries in a row -/

def layout : ℕ → List Entry → Buf
  | _, [] => []
  | prev, e :: es => e.bytes prev ++ layout e.rawlen es

def Chained : ℕ → List Entry → Prop
  | _, [] => True
  | prev, e :: es => e.Ok prev ∧ Chained e.rawlen es

def size (es : List Entry) : ℕ := (es.map Entry.rawlen).sum

/- The length of the last entry. -/
def lastLen : ℕ → List Entry → ℕ
  | prev, [] => prev
  | _, e :: es => lastLen e.rawlen es

/- Where the last entry starts. -/
def lastOffset : List Entry → ℕ
  | [] => 0
  | [_] => 0
  | e :: es => e.rawlen + lastOffset es

section

variable {prev : ℕ} {e : Entry} {es fs : List Entry}

@[simp] theorem layout_nil (prev : ℕ) : layout prev [] = [] := rfl

@[simp] theorem layout_cons (prev : ℕ) (e : Entry) (es : List Entry) :
    layout prev (e :: es) = e.bytes prev ++ layout e.rawlen es := rfl

@[simp] theorem size_nil : size [] = 0 := rfl

@[simp] theorem size_cons (e : Entry) (es : List Entry) : size (e :: es) = e.rawlen + size es := by
  simp [size]

@[simp] theorem size_append (es fs : List Entry) : size (es ++ fs) = size es + size fs := by
  simp [size]

@[simp] theorem layout_length (prev : ℕ) (es : List Entry) : (layout prev es).length = size es := by
  induction es generalizing prev with
  | nil => rfl
  | cons e es ih => simp [ih]

theorem layout_append (prev : ℕ) (es fs : List Entry) :
    layout prev (es ++ fs) = layout prev es ++ layout (lastLen prev es) fs := by
  induction es generalizing prev with
  | nil => rfl
  | cons e es ih => simp [ih, lastLen]

theorem chained_append (prev : ℕ) (es fs : List Entry) :
    Chained prev (es ++ fs) ↔ Chained prev es ∧ Chained (lastLen prev es) fs := by
  induction es generalizing prev with
  | nil => simp [Chained, lastLen]
  | cons e es ih => simp [Chained, ih, lastLen, and_assoc]

theorem lastLen_append (prev : ℕ) (es fs : List Entry) :
    lastLen prev (es ++ fs) = lastLen (lastLen prev es) fs := by
  induction es generalizing prev with
  | nil => rfl
  | cons e es ih => exact ih e.rawlen

theorem lastOffset_cons (e : Entry) {es : List Entry} (hes : es ≠ []) :
    lastOffset (e :: es) = e.rawlen + lastOffset es := by
  cases es with
  | nil => exact absurd rfl hes
  | cons f fs => rfl

theorem lastOffset_append (es : List Entry) {fs : List Entry} (hfs : fs ≠ []) :
    lastOffset (es ++ fs) = size es + lastOffset fs := by
  induction es with
  | nil => simp
  | cons e es ih =>
    rw [List.cons_append, lastOffset_cons e (by simp [hfs]), ih, size_cons, Nat.add_assoc]

theorem lastOffset_le (es : List Entry) : lastOffset es ≤ size es := by
  induction es with
  | nil => exact Nat.le_refl _
  | cons e es ih =>
    cases es with
    | nil => exact Nat.zero_le _
    | cons f fs =>
      rw [lastOffset_cons e (by simp), size_cons]
      exact Nat.add_le_add_left ih _

end

/-! ### The whole block -/

def endByte : UInt8 := UInt8.ofNat ZIP_END

/- The list whose entries take these bytes, the last of them from `off` on. -/
def block (body : Buf) (off count : ℤ) : Buf :=
  headerBytes (11 + body.length) (10 + off) count ++ (body ++ [endByte])

section

variable {body pre mid post bs : Buf} {off count : ℤ} {e : Entry} {prev p : ℕ}

theorem block_split (pre mid post : Buf) (off count : ℤ) :
    block (pre ++ mid ++ post) off count =
      (headerBytes (11 + (pre ++ mid ++ post).length) (10 + off) count ++ pre) ++ mid ++
        (post ++ [endByte]) := by
  simp only [block, List.append_assoc]

@[simp] theorem block_length (body : Buf) (off count : ℤ) :
    (block body off count).length = 11 + body.length := by
  simp only [block, List.length_append, headerBytes_length, List.length_singleton]
  omega

theorem bytes_block (h : 11 + body.length < 2 ^ 32) :
    bytes (block body off count) = some (11 + body.length) := by
  rw [block, bytes_header (by omega) (by omega)]
  congr 1

theorem tailOffset_block (hlo : 0 ≤ off) (hhi : 10 + off < 2 ^ 32) :
    tailOffset (block body off count) = some (10 + off).toNat :=
  tailOffset_header (by omega) hhi

theorem setTailOffset_block (n : ℤ) :
    setTailOffset (block body off count) (10 + n) = some (block body n count) :=
  setTailOffset_header _

theorem shiftTail_block (moves : Bool) (n : ℤ) (hlo : 0 ≤ off) (hhi : 10 + off < 2 ^ 32) :
    shiftTail (block body off count) moves n =
      some (block body (if moves then off + n else off) count) := by
  rw [block, shiftTail_header moves n (by omega) hhi]
  cases moves
  · rfl
  · rw [if_pos rfl, if_pos rfl, Int.add_assoc]
    rfl

theorem incrLength_block (incr : ℤ) (hlo : 0 ≤ count) (hhi : count < UINT16_MAX) :
    incrLength (block body off count) incr = some (block body off (count + incr)) :=
  incrLength_header incr hlo hhi

theorem length_block (hlo : 0 ≤ count) (hhi : count < 2 ^ 16) :
    length (block body off count) = some count.toNat :=
  length_header hlo hhi

theorem byteAt_end (hp : p = 10 + body.length) :
    byteAt (block body off count) p = some ZIP_END := by
  rw [block, ← List.append_assoc]
  exact byteAt_append (by simp [hp]) endByte

theorem byteAt_block (h : e.Ok prev) (hp : p = 10 + pre.length) :
    ∃ first, byteAt (block (pre ++ e.bytes prev ++ post) off count) p = some first ∧
      first ≠ ZIP_END := by
  rw [block_split]
  exact byteAt_entry h (by simp [hp])

theorem zipEntry_block (h : e.Ok prev) (hp : p = 10 + pre.length) :
    zipEntry (block (pre ++ e.bytes prev ++ post) off count) p = some (e.zlentry prev) := by
  rw [block_split]
  exact zipEntry_entry h (by simp [hp])

theorem rawEntryLength_block (h : e.Ok prev) (hp : p = 10 + pre.length) :
    rawEntryLength (block (pre ++ e.bytes prev ++ post) off count) p = some e.rawlen := by
  rw [block_split]
  exact rawEntryLength_entry h (by simp [hp])

theorem decodePrevlen_block (h : e.Ok prev) (hp : p = 10 + pre.length) :
    decodePrevlen (block (pre ++ e.bytes prev ++ post) off count) p = some (e.prevSize, prev) := by
  rw [block_split]
  exact decodePrevlen_entry h (by simp [hp])

theorem decodePrevlensize_block (h : e.Ok prev) (hp : p = 10 + pre.length) :
    decodePrevlensize (block (pre ++ e.bytes prev ++ post) off count) p = some e.prevSize := by
  rw [block_split]
  exact decodePrevlensize_entry h (by simp [hp])

theorem store_block (hp : p = 10 + pre.length) (hn : bs.length = mid.length) :
    store (block (pre ++ mid ++ post) off count) p bs = some (block (pre ++ bs ++ post) off count) := by
  rw [block_split, block_split, store_append (by simp [hp]) hn]
  simp only [List.length_append, hn]

/-- The block gets longer by so many bytes, whatever they hold; the byte that was the end stays. -/
theorem resize_block_grow (body : Buf) (off count : ℤ) (n : ℕ) (junk : ℕ → UInt8)
    (h : 11 + body.length + n < 2 ^ 32) :
    ∃ slot, resize (block body off count) (11 + body.length + n) junk =
        some (block (body ++ slot) off count) ∧ slot.length = n ∧
      (0 < n → ∃ bs, slot = endByte :: bs) := by
  have hmod : (11 + body.length + n) % 2 ^ 32 = 11 + body.length + n := Nat.mod_eq_of_lt h
  obtain ⟨fresh, hresize, hfresh⟩ := resize_grow (b := block body off count) junk
    (Nat.le_trans (by rw [block_length]) (Nat.le_add_right (11 + body.length) n))
  rw [block_length] at hfresh
  -- The old end byte and all new bytes but the last become the slot.
  refine ⟨([endByte] ++ fresh).take n, ?_, ?_, ?_⟩
  · have hlast : (([endByte] ++ fresh).drop n).length = 1 := by
      rw [List.length_drop, List.length_append, List.length_singleton]
      omega
    have hsplit : headerBytes (11 + body.length + n) (10 + off) count ++ (body ++ [endByte]) ++ fresh =
        (headerBytes (11 + body.length + n) (10 + off) count ++ body ++ ([endByte] ++ fresh).take n) ++
          ([endByte] ++ fresh).drop n ++ [] := by
      rw [List.append_nil, List.append_assoc _ (List.take _ _), List.take_append_drop]
      simp only [List.append_assoc]
    have htake : (([endByte] ++ fresh).take n).length = n := by
      rw [List.length_take, List.length_append, List.length_singleton]
      omega
    rw [resize, hmod, hresize, block, List.append_assoc, setBytes_header, Option.bind_some,
      ← List.append_assoc]
    push_cast
    rw [hsplit, store_append (by
      simp only [List.length_append, headerBytes_length, htake]
      omega) (by rw [hlast]; rfl)]
    simp only [block, List.append_nil, List.append_assoc, List.length_append, htake, Nat.cast_add,
      Int.add_assoc]
    rfl
  · rw [List.length_take, List.length_append, List.length_singleton]
    omega
  · intro hpos
    obtain ⟨m, rfl⟩ := Nat.exists_eq_add_one_of_ne_zero (Nat.ne_of_gt hpos)
    exact ⟨fresh.take m, rfl⟩

/-- The block is cut. -/
theorem resize_block_cut (pre gone : Buf) (off count : ℤ) (junk : ℕ → UInt8)
    (h : 11 + pre.length < 2 ^ 32) :
    resize (block (pre ++ gone) off count) (11 + pre.length) junk = some (block pre off count) := by
  have hmod : (11 + pre.length) % 2 ^ 32 = 11 + pre.length := Nat.mod_eq_of_lt h
  have hcut : Bytes.resize (block (pre ++ gone) off count) (11 + pre.length) junk =
      headerBytes (11 + (pre ++ gone).length) (10 + off) count ++ (pre ++ (gone ++ [endByte]).take 1) := by
    have hzero : 11 + pre.length - (block (pre ++ gone) off count).length = 0 := by
      rw [block_length, List.length_append]
      omega
    rw [Bytes.resize, hzero, List.range_zero, List.map_nil, List.append_nil, block, List.append_assoc pre,
      List.take_append, headerBytes_length, List.take_of_length_le (by rw [headerBytes_length]; omega),
      List.take_append, List.take_of_length_le (by omega)]
    have hone : 11 + pre.length - 10 - pre.length = 1 := by omega
    rw [hone]
  have hlast : ((gone ++ [endByte]).take 1).length = 1 := by
    rw [List.length_take, List.length_append, List.length_singleton]
    omega
  rw [resize, hmod, hcut, setBytes_header, Option.bind_some, ← List.append_assoc]
  have hstore := @store_append (headerBytes ((11 + pre.length : ℕ) : ℤ) (10 + off) count ++ pre)
    ((gone ++ [endByte]).take 1) [] (11 + pre.length - 1) [UInt8.ofNat ZIP_END]
    (by simp only [List.length_append, headerBytes_length]; omega) (by rw [hlast]; rfl)
  rw [List.append_nil, List.append_nil] at hstore
  rw [hstore, block, List.append_assoc]
  push_cast
  rfl

/-- The last bytes are moved towards the end of the block. -/
theorem move_block {dst n : ℕ} (hp : p = 10 + pre.length) (hn : n = mid.length)
    (hdst : dst = 10 + pre.length + post.length) :
    ∃ slot, move (block (pre ++ mid ++ post) off count) dst p n =
        some (block (pre ++ slot ++ mid) off count) ∧ slot.length = post.length := by
  obtain ⟨slot, hmove, hslot⟩ := @move_right
    (headerBytes (11 + (pre ++ mid ++ post).length) (10 + off) count ++ pre) mid post p n [endByte] dst
    (by simp [hp]) hn (by simp only [List.length_append, headerBytes_length]; omega)
  refine ⟨slot, ?_, hslot⟩
  rw [block_split, ← List.append_assoc, hmove, block_split]
  simp only [List.length_append, hslot, List.append_assoc, Nat.cast_add]
  congr 4
  omega

/-- The last bytes are moved towards the end of the block, together with four bytes before them,
which can be bytes of the header. -/
theorem moveApart_block {dst src n : ℕ} (hsrc : src = 6 + pre.length) (hn : n = 4 + mid.length)
    (hdst : dst = 6 + pre.length + post.length) (hroom : 4 ≤ post.length) :
    ∃ slot four, move (block (pre ++ mid ++ post) off count) dst src n =
        some (block (pre ++ slot ++ four ++ mid) off count) ∧
      slot.length + 4 = post.length ∧ four.length = 4 := by
  have hlength : (headerBytes (11 + (pre ++ mid ++ post).length) (10 + off) count ++ pre).length =
      10 + pre.length := by
    rw [List.length_append, headerBytes_length]
  obtain ⟨start, four, hwhole, hstart, hfour⟩ : ∃ start four,
      headerBytes (11 + (pre ++ mid ++ post).length) (10 + off) count ++ pre = start ++ four ∧
        start.length = 6 + pre.length ∧ four.length = 4 := by
    refine ⟨_, _, (List.take_append_drop (6 + pre.length) _).symm, ?_, ?_⟩
    · rw [List.length_take, hlength]
      omega
    · rw [List.length_drop, hlength]
      omega
  obtain ⟨slot, hmove, hslot⟩ := @move_apart start mid post src n four [endByte] dst
    (by omega) (by omega) (by omega) (by omega)
  refine ⟨slot, four, ?_, by omega, hfour⟩
  rw [block_split, ← List.append_assoc, hwhole, hmove, ← hwhole]
  simp only [block, List.length_append, List.append_assoc, Nat.cast_add]
  congr 4
  omega

/-- The last bytes are moved towards the start of the block. -/
theorem moveDown_block {gone : Buf} {src n : ℕ} (hp : p = 10 + pre.length)
    (hsrc : src = 10 + pre.length + gone.length) (hn : n = mid.length) :
    ∃ rest, move (block (pre ++ gone ++ mid) off count) p src n =
        some (block (pre ++ mid ++ rest) off count) ∧ rest.length = gone.length := by
  obtain ⟨rest, hmove, hrest⟩ := @move_left
    (headerBytes (11 + (pre ++ gone ++ mid).length) (10 + off) count ++ pre) mid src n gone [endByte] p
    (by simp [hp]) (by simp only [List.length_append, headerBytes_length]; omega) hn
  refine ⟨rest, ?_, hrest⟩
  rw [block_split, ← List.append_assoc, hmove, block_split]
  simp only [List.length_append, hrest, List.append_assoc, Nat.cast_add]
  congr 4
  omega

end

/- So many bytes are enough for entries with these texts. -/
def weight (texts : List Str) : ℕ := (texts.map fun t => t.length + 18).sum

structure Holds (zl : Buf) (es : List Entry) : Prop where
  shape : zl = block (layout 0 es) (lastOffset es) es.length
  chained : Chained 0 es
  few : es.length < UINT16_MAX
  small : 11 + weight (es.map Entry.text) < 2 ^ 32

end NodeServer.Redis.Ziplist

import NodeServer.Lib.Bytes
import NodeServer.Redis.Numbers

/-! # Lists in one block of memory (`redis-5.0.2/src/ziplist.c`)

A ziplist is a header (the number of bytes, the offset of the last entry, the number of
entries), the entries, and a byte 255. An entry starts with the length of the entry before
it, in one byte or in five, so that a change of one entry can make the next one longer, and
that one the next. Pointers are offsets from the start of the block. -/

namespace NodeServer.Redis

open Bytes

/- The bytes of a text, one for each character. -/
def bytesOf (s : Str) : Buf := s.map fun c => UInt8.ofNat c.toNat

def textOf (b : Buf) : Str := b.map fun c => Char.ofNat c.toNat

namespace Ziplist

def ZIP_END : ℕ := 255
def ZIP_BIG_PREVLEN : ℕ := 254
def ZIP_STR_MASK : ℕ := 0xc0
def ZIP_STR_06B : ℕ := 0
def ZIP_STR_14B : ℕ := 0x40
def ZIP_STR_32B : ℕ := 0x80
def ZIP_INT_16B : ℕ := 0xc0
def ZIP_INT_32B : ℕ := 0xd0
def ZIP_INT_64B : ℕ := 0xe0
def ZIP_INT_24B : ℕ := 0xf0
def ZIP_INT_8B : ℕ := 0xfe
def ZIP_INT_IMM_MASK : ℕ := 0x0f
def ZIP_INT_IMM_MIN : ℕ := 0xf1
def ZIP_INT_IMM_MAX : ℕ := 0xfd
def UINT16_MAX : ℕ := 2 ^ 16 - 1
def ZIPLIST_HEADER_SIZE : ℕ := 10

def byteAt (zl : Buf) (p : ℕ) : Option ℕ := zl[p]?.map UInt8.toNat

/-! ### The header -/

/- `ZIPLIST_BYTES`. -/
def bytes (zl : Buf) : Option ℕ := (load zl 0 4).map toNat

/- `ZIPLIST_TAIL_OFFSET`. -/
def tailOffset (zl : Buf) : Option ℕ := (load zl 4 4).map toNat

/- `ZIPLIST_LENGTH`. -/
def length (zl : Buf) : Option ℕ := (load zl 8 2).map toNat

def setBytes (zl : Buf) (n : ℤ) : Option Buf := store zl 0 (ofInt 4 n)

def setTailOffset (zl : Buf) (n : ℤ) : Option Buf := store zl 4 (ofInt 4 n)

def setLength (zl : Buf) (n : ℤ) : Option Buf := store zl 8 (ofInt 2 n)

/- `ZIPLIST_INCR_LENGTH`. -/
def incrLength (zl : Buf) (incr : ℤ) : Option Buf :=
  (length zl).bind fun len => if len < UINT16_MAX then setLength zl (len + incr) else some zl

/- The tail offset is changed by so much under a condition. -/
def shiftTail (zl : Buf) (moves : Bool) (by' : ℤ) : Option Buf :=
  (tailOffset zl).bind fun tail => if moves then setTailOffset zl (tail + by') else some zl

/-! ### One entry -/

/- `ZIP_IS_STR`. -/
def isStr (encoding : ℕ) : Bool := encoding &&& ZIP_STR_MASK < ZIP_STR_MASK

/-- `zipIntSize` (ziplist.c:306). -/
def zipIntSize (encoding : ℕ) : Option ℕ :=
  if encoding = ZIP_INT_8B then some 1
  else if encoding = ZIP_INT_16B then some 2
  else if encoding = ZIP_INT_24B then some 3
  else if encoding = ZIP_INT_32B then some 4
  else if encoding = ZIP_INT_64B then some 8
  else if encoding ≥ ZIP_INT_IMM_MIN ∧ encoding ≤ ZIP_INT_IMM_MAX then some 0
  else none

/-- What `zipStoreEntryEncoding` (ziplist.c:332) writes. -/
def encodingBytes (encoding rawlen : ℕ) : Buf :=
  if isStr encoding then
    if rawlen ≤ 0x3f then [UInt8.ofNat (ZIP_STR_06B ||| rawlen)]
    else if rawlen ≤ 0x3fff then
      [UInt8.ofNat (ZIP_STR_14B ||| ((rawlen >>> 8) &&& 0x3f)), UInt8.ofNat (rawlen &&& 0xff)]
    else [UInt8.ofNat ZIP_STR_32B, UInt8.ofNat ((rawlen >>> 24) &&& 0xff),
      UInt8.ofNat ((rawlen >>> 16) &&& 0xff), UInt8.ofNat ((rawlen >>> 8) &&& 0xff),
      UInt8.ofNat (rawlen &&& 0xff)]
  else [UInt8.ofNat encoding]

/- `ZIP_DECODE_LENGTH`: the encoding, the size of the length, and the length. -/
def decodeLength (zl : Buf) (p : ℕ) : Option (ℕ × ℕ × ℕ) :=
  (byteAt zl p).bind fun first =>
    let encoding := if first < ZIP_STR_MASK then first &&& ZIP_STR_MASK else first
    if encoding < ZIP_STR_MASK then
      if encoding = ZIP_STR_06B then some (encoding, 1, first &&& 0x3f)
      else if encoding = ZIP_STR_14B then
        (byteAt zl (p + 1)).map fun b1 => (encoding, 2, ((first &&& 0x3f) <<< 8) ||| b1)
      else if encoding = ZIP_STR_32B then do
        let b1 ← byteAt zl (p + 1)
        let b2 ← byteAt zl (p + 2)
        let b3 ← byteAt zl (p + 3)
        let b4 ← byteAt zl (p + 4)
        some (encoding, 5, (b1 <<< 24) ||| (b2 <<< 16) ||| (b3 <<< 8) ||| b4)
      else none
    else (zipIntSize encoding).map fun len => (encoding, 1, len)

/-- What `zipStorePrevEntryLengthLarge` (ziplist.c:397) writes. -/
def prevlenBytesLarge (len : ℕ) : Buf := UInt8.ofNat ZIP_BIG_PREVLEN :: ofInt 4 len

/-- What `zipStorePrevEntryLength` (ziplist.c:408) writes. -/
def prevlenBytes (len : ℕ) : Buf :=
  if len < ZIP_BIG_PREVLEN then [UInt8.ofNat len] else prevlenBytesLarge len

/- `zipStorePrevEntryLength(NULL, len)`. -/
def prevlenSize (len : ℕ) : ℕ := if len < ZIP_BIG_PREVLEN then 1 else 5

/- `ZIP_DECODE_PREVLENSIZE`. -/
def decodePrevlensize (zl : Buf) (p : ℕ) : Option ℕ :=
  (byteAt zl p).map fun first => if first < ZIP_BIG_PREVLEN then 1 else 5

/- `ZIP_DECODE_PREVLEN`: the size of the length, and the length. -/
def decodePrevlen (zl : Buf) (p : ℕ) : Option (ℕ × ℕ) :=
  (byteAt zl p).bind fun first =>
    if first < ZIP_BIG_PREVLEN then some (1, first)
    else (load zl (p + 1) 4).map fun bs => (5, toNat bs)

/-- `zipPrevLenByteDiff` (ziplist.c:464). -/
def prevLenByteDiff (zl : Buf) (p len : ℕ) : Option ℤ :=
  (decodePrevlensize zl p).map fun prevlensize : ℕ => (prevlenSize len : ℤ) - prevlensize

/-- `zipRawEntryLength` (ziplist.c:471). -/
def rawEntryLength (zl : Buf) (p : ℕ) : Option ℕ :=
  (decodePrevlensize zl p).bind fun prevlensize =>
    (decodeLength zl (p + prevlensize)).map fun (_, lensize, len) => prevlensize + lensize + len

/- The smallest encoding that can hold the value (ziplist.c:487-499). -/
def integerEncoding (value : ℤ) : ℕ :=
  if value ≥ 0 ∧ value ≤ 12 then ZIP_INT_IMM_MIN + value.toNat
  else if value ≥ -2 ^ 7 ∧ value ≤ 2 ^ 7 - 1 then ZIP_INT_8B
  else if value ≥ -2 ^ 15 ∧ value ≤ 2 ^ 15 - 1 then ZIP_INT_16B
  else if value ≥ -2 ^ 23 ∧ value ≤ 2 ^ 23 - 1 then ZIP_INT_24B
  else if value ≥ -2 ^ 31 ∧ value ≤ 2 ^ 31 - 1 then ZIP_INT_32B
  else ZIP_INT_64B

/-- `zipTryEncoding` (ziplist.c:480). -/
def zipTryEncoding (entry : Str) : Option (ℤ × ℕ) :=
  if entry.length ≥ 32 ∨ entry.length = 0 then none
  else (string2ll entry).map fun value => (value, integerEncoding value)

/-- What `zipSaveInteger` (ziplist.c:507) writes. -/
def integerBytes (value : ℤ) (encoding : ℕ) : Option Buf :=
  if encoding = ZIP_INT_8B then some (ofInt 1 value)
  else if encoding = ZIP_INT_16B then some (ofInt 2 value)
  else if encoding = ZIP_INT_24B then some ((ofInt 4 (value * 2 ^ 8)).drop 1)
  else if encoding = ZIP_INT_32B then some (ofInt 4 value)
  else if encoding = ZIP_INT_64B then some (ofInt 8 value)
  else if encoding ≥ ZIP_INT_IMM_MIN ∧ encoding ≤ ZIP_INT_IMM_MAX then some []
  else none

/-- `zipLoadInteger` (ziplist.c:537). -/
def loadInteger (zl : Buf) (p encoding : ℕ) : Option ℤ :=
  if encoding = ZIP_INT_8B then (load zl p 1).map toInt
  else if encoding = ZIP_INT_16B then (load zl p 2).map toInt
  else if encoding = ZIP_INT_32B then (load zl p 4).map toInt
  else if encoding = ZIP_INT_24B then (load zl p 3).map fun bs => toInt (0 :: bs) / 2 ^ 8
  else if encoding = ZIP_INT_64B then (load zl p 8).map toInt
  else if encoding ≥ ZIP_INT_IMM_MIN ∧ encoding ≤ ZIP_INT_IMM_MAX then
    some ((encoding &&& ZIP_INT_IMM_MASK : ℕ) - 1)
  else none

structure Zlentry where
  prevrawlensize : ℕ
  prevrawlen : ℕ
  lensize : ℕ
  len : ℕ
  encoding : ℕ

def Zlentry.headersize (e : Zlentry) : ℕ := e.prevrawlensize + e.lensize

/-- `zipEntry` (ziplist.c:569). -/
def zipEntry (zl : Buf) (p : ℕ) : Option Zlentry :=
  (decodePrevlen zl p).bind fun (prevrawlensize, prevrawlen) =>
    (decodeLength zl (p + prevrawlensize)).map fun (encoding, lensize, len) =>
      ⟨prevrawlensize, prevrawlen, lensize, len, encoding⟩

/-! ### The whole list -/

/-- `ziplistNew` (ziplist.c:578). -/
def new : Buf := ofInt 4 11 ++ ofInt 4 10 ++ ofInt 2 0 ++ [UInt8.ofNat ZIP_END]

/-- `ziplistResize` (ziplist.c:589); the size is of type `unsigned int`. -/
def resize (zl : Buf) (len : ℕ) (junk : ℕ → UInt8) : Option Buf :=
  (setBytes (Bytes.resize zl (len % 2 ^ 32) junk) len).bind fun zl =>
    store zl (len % 2 ^ 32 - 1) [UInt8.ofNat ZIP_END]

/-- `__ziplistCascadeUpdate` (ziplist.c:616). Every round goes to the next entry, so that the
number of bytes bounds the rounds. -/
def cascadeUpdate (junk : ℕ → UInt8) : ℕ → Buf → ℕ → ℕ → Option Buf
  | 0, _, _, _ => none
  | fuel + 1, zl, p, curlen => do
    let first ← byteAt zl p
    if first = ZIP_END then some zl
    else
      let cur ← zipEntry zl p
      let rawlen := cur.headersize + cur.len
      let rawlensize := prevlenSize rawlen
      let after ← byteAt zl (p + rawlen)
      if after = ZIP_END then some zl
      else
        let next ← zipEntry zl (p + rawlen)
        if next.prevrawlen = rawlen then some zl
        else if next.prevrawlensize < rawlensize then
          let extra := rawlensize - next.prevrawlensize
          let zl ← resize zl (curlen + extra) junk
          let np := p + rawlen
          let tail ← tailOffset zl
          let zl ← shiftTail zl (tail ≠ np) extra
          let zl ← move zl (np + rawlensize) (np + next.prevrawlensize)
            (curlen - np - next.prevrawlensize - 1)
          let zl ← store zl np (prevlenBytes rawlen)
          cascadeUpdate junk fuel zl np (curlen + extra)
        else if next.prevrawlensize > rawlensize then store zl (p + rawlen) (prevlenBytesLarge rawlen)
        else store zl (p + rawlen) (prevlenBytes rawlen)

/- Where so many entries end, and how many there are (ziplist.c:685-688). -/
def skipEntries (zl : Buf) : ℕ → ℕ → Option (ℕ × ℕ)
  | 0, p => some (p, 0)
  | num + 1, p => do
    let first ← byteAt zl p
    if first = ZIP_END then some (p, 0)
    else
      let len ← rawEntryLength zl p
      let (q, deleted) ← skipEntries zl num (p + len)
      some (q, deleted + 1)

/- The entries from `q` on are moved down to `p` (ziplist.c:693-721), and the difference in
the length of the first of them. -/
def closeGap (zl : Buf) (p q prevrawlen : ℕ) : Option (Buf × ℤ) := do
  let nextdiff ← prevLenByteDiff zl q prevrawlen
  let totlen := q - p
  let q := ((q : ℤ) - nextdiff).toNat
  let zl ← store zl q (prevlenBytes prevrawlen)
  let zl ← shiftTail zl true (-totlen)
  let next ← zipEntry zl q
  let after ← byteAt zl (q + next.headersize + next.len)
  let zl ← shiftTail zl (after ≠ ZIP_END) nextdiff
  let bytes ← bytes zl
  let zl ← move zl p q (bytes - q - 1)
  some (zl, nextdiff)

/- The last entries go (ziplist.c:723-725). -/
def dropTail (zl : Buf) (p prevrawlen : ℕ) : Option (Buf × ℤ) :=
  (setTailOffset zl (p - prevrawlen)).map fun zl => (zl, 0)

/- The first byte decides whether entries are left behind those that go. -/
def removeBytes (zl : Buf) (p q prevrawlen : ℕ) : Option (Buf × ℤ) :=
  (byteAt zl q).bind fun after =>
    if after ≠ ZIP_END then closeGap zl p q prevrawlen else dropTail zl p prevrawlen

/-- The cascade from a position on, if the length of the entry there has changed. -/
def cascadeIf (zl : Buf) (p : ℕ) (nextdiff : ℤ) (junk : ℕ → UInt8) : Option Buf :=
  if nextdiff ≠ 0 then (bytes zl).bind fun curlen => cascadeUpdate junk zl.length zl p curlen
  else some zl

/-- `__ziplistDelete` (ziplist.c:678). -/
def delete (zl : Buf) (p num : ℕ) (junk : ℕ → UInt8) : Option Buf := do
  let first ← zipEntry zl p
  let (q, deleted) ← skipEntries zl num p
  let totlen := q - p
  if totlen > 0 then
    let (zl, nextdiff) ← removeBytes zl p q first.prevrawlen
    let bytes ← bytes zl
    let zl ← resize zl ((bytes : ℤ) - totlen + nextdiff).toNat junk
    let zl ← incrLength zl (-deleted)
    cascadeIf zl p nextdiff junk
  else some zl

/- The length of the entry before the position (ziplist.c:754-762). -/
def prevlenAt (zl : Buf) (p : ℕ) : Option ℕ := do
  let first ← byteAt zl p
  if first ≠ ZIP_END then (decodePrevlen zl p).map Prod.snd
  else
    let ptail ← tailOffset zl
    let last ← byteAt zl ptail
    if last ≠ ZIP_END then rawEntryLength zl ptail else some 0

/- By how much the entry at the position gets longer when one of `reqlen` bytes comes before
it, and whether it has to keep five bytes for less (ziplist.c:781-786). -/
def nextDiff (zl : Buf) (p reqlen : ℕ) : Option (ℤ × Bool) := do
  let first ← byteAt zl p
  if first ≠ ZIP_END then
    let nextdiff ← prevLenByteDiff zl p reqlen
    if nextdiff = -4 ∧ reqlen < 4 then some (0, true) else some (nextdiff, false)
  else some (0, false)

/- The entries at the position are moved up (ziplist.c:793-819). -/
def openGap (zl : Buf) (p curlen reqlen : ℕ) (nextdiff : ℤ) (forcelarge : Bool) : Option Buf := do
  let first ← byteAt zl p
  if first ≠ ZIP_END then
    let zl ← move zl (p + reqlen) ((p : ℤ) - nextdiff).toNat ((curlen : ℤ) - p - 1 + nextdiff).toNat
    let zl ← store zl (p + reqlen)
      (if forcelarge then prevlenBytesLarge reqlen else prevlenBytes reqlen)
    let zl ← shiftTail zl true reqlen
    let next ← zipEntry zl (p + reqlen)
    let after ← byteAt zl (p + reqlen + next.headersize + next.len)
    shiftTail zl (after ≠ ZIP_END) nextdiff
  else setTailOffset zl p

/- The bytes of an entry behind its first field: the encoding with the length, and the text
or the integer (ziplist.c:764-776, 830-836). -/
def contentBytes (s : Str) : Option (Buf × Buf) :=
  match zipTryEncoding s with
  | some (value, encoding) => (integerBytes value encoding).map fun payload =>
    (encodingBytes encoding s.length, payload)
  | none => some (encodingBytes 0 s.length, bytesOf s)

/-- `__ziplistInsert` (ziplist.c:743). -/
def insert (zl : Buf) (p : ℕ) (s : Str) (junk : ℕ → UInt8) : Option Buf := do
  let curlen ← bytes zl
  let prevlen ← prevlenAt zl p
  let (header, payload) ← contentBytes s
  let reqlen := payload.length + prevlenSize prevlen + header.length
  let (nextdiff, forcelarge) ← nextDiff zl p reqlen
  let zl ← resize zl ((curlen : ℤ) + reqlen + nextdiff).toNat junk
  let zl ← openGap zl p curlen reqlen nextdiff forcelarge
  let zl ← cascadeIf zl (p + reqlen) nextdiff junk
  let zl ← store zl p (prevlenBytes prevlen)
  let zl ← store zl (p + prevlenSize prevlen) header
  let zl ← store zl (p + prevlenSize prevlen + header.length) payload
  incrLength zl 1

/-- `ziplistPush` (ziplist.c:956), at the head or at the tail. -/
def push (zl : Buf) (s : Str) (atHead : Bool) (junk : ℕ → UInt8) : Option Buf :=
  if atHead then insert zl ZIPLIST_HEADER_SIZE s junk
  else (bytes zl).bind fun bytes => insert zl (bytes - 1) s junk

/- `ziplistIndex` at an index that is not negative (ziplist.c:979-984). Its loop is that of
`skipEntries`. -/
def indexForward (zl : Buf) (i : ℕ) : Option (Option ℕ) :=
  (skipEntries zl i ZIPLIST_HEADER_SIZE).bind fun (p, _) =>
    (byteAt zl p).map fun first => if first = ZIP_END then none else some p

/- So many entries towards the head (ziplist.c:972-976), and how many there are too few. -/
def skipBack (zl : Buf) : ℕ → ℕ → Option (ℕ × ℕ)
  | 0, p => (decodePrevlen zl p).map fun _ => (p, 0)
  | i + 1, p => (decodePrevlen zl p).bind fun (_, prevlen) =>
    if prevlen = 0 then some (p, i + 1)
    else if prevlen > p then none
    else skipBack zl i (p - prevlen)

/- `ziplistIndex` at the index `-(i + 1)` (ziplist.c:969-977, 984). The smallest `int` has no
negation. -/
def indexBackward (zl : Buf) (i : ℕ) : Option (Option ℕ) :=
  if i ≥ 2 ^ 31 - 1 then none
  else (tailOffset zl).bind fun tail => (byteAt zl tail).bind fun last =>
    if last = ZIP_END then some none
    else (skipBack zl i tail).bind fun (p, left) =>
      (byteAt zl p).map fun first => if first = ZIP_END ∨ left > 0 then none else some p

/-- `ziplistIndex` (ziplist.c:965). -/
def index (zl : Buf) : ℤ → Option (Option ℕ)
  | .ofNat i => indexForward zl i
  | .negSucc i => indexBackward zl i

/-- `ziplistDeleteRange` (ziplist.c:1074). -/
def deleteRange (zl : Buf) (i : ℤ) (num : ℕ) (junk : ℕ → UInt8) : Option Buf :=
  (index zl i).bind fun p => match p with
    | none => some zl
    | some p => delete zl p num junk

/-- `ziplistNext` (ziplist.c:993). -/
def next (zl : Buf) (p : ℕ) : Option (Option ℕ) := do
  let first ← byteAt zl p
  if first = ZIP_END then some none
  else
    let len ← rawEntryLength zl p
    let after ← byteAt zl (p + len)
    if after = ZIP_END then some none else some (some (p + len))

/-- `ziplistPrev` (ziplist.c:1012). -/
def prev (zl : Buf) (p : ℕ) : Option (Option ℕ) := do
  let first ← byteAt zl p
  if first = ZIP_END then
    let tail ← tailOffset zl
    let last ← byteAt zl tail
    some (if last = ZIP_END then none else some tail)
  else if p = ZIPLIST_HEADER_SIZE then some none
  else
    let (_, prevlen) ← decodePrevlen zl p
    if prevlen = 0 ∨ prevlen > p then none else some (some (p - prevlen))

/- What `ziplistGet` stores into its arguments. -/
inductive Value where
  | str (s : Buf)
  | int (v : ℤ)

/-- `ziplistGet` (ziplist.c:1034), none at the end. -/
def get (zl : Buf) (p : ℕ) : Option (Option Value) := do
  let first ← byteAt zl p
  if first = ZIP_END then some none
  else
    let entry ← zipEntry zl p
    if isStr entry.encoding then
      (load zl (p + entry.headersize) entry.len).map fun s => some (.str s)
    else (loadInteger zl (p + entry.headersize) entry.encoding).map fun v => some (.int v)

/- The text that `addHashFieldToReply` (t_hash.c:640) replies with. -/
def Value.text : Value → Option Str
  | str s => some (textOf s)
  | int v => bulkLongLong v

/- The text of the entry at a position. -/
def textAt (zl : Buf) (p : ℕ) : Option Str :=
  (get zl p).bind fun value => value.bind Value.text

/- The entries from a position on, one after the other, as `quicklistNext` (quicklist.c:1117)
goes through a ziplist in one direction or the other. -/
def walk {α : Type} (read : ℕ → Option α) (nextFn : ℕ → Option (Option ℕ)) :
    ℕ → Option ℕ → Option (List α)
  | _, none => some []
  | 0, some _ => none
  | fuel + 1, some p => do
    let a ← read p
    let q ← nextFn p
    let rest ← walk read nextFn fuel q
    some (a :: rest)

/- The texts from the head to the tail. -/
def texts (zl : Buf) : Option (List Str) :=
  (index zl 0).bind (walk (textAt zl) (next zl) zl.length)

/- The texts from the tail to the head. -/
def textsBack (zl : Buf) : Option (List Str) :=
  (index zl (-1)).bind (walk (textAt zl) (prev zl) zl.length)

/- The length of each entry. -/
def rawlens (zl : Buf) : Option (List ℕ) :=
  (index zl 0).bind (walk (rawEntryLength zl) (next zl) zl.length)

/- The length that each entry keeps of the one before it. -/
def prevlens (zl : Buf) : Option (List ℕ) :=
  (index zl 0).bind (walk (fun p => (decodePrevlen zl p).map Prod.snd) (next zl) zl.length)

/- `memcmp` of the text with one of the same length. -/
def sameText (zl : Buf) (q len : ℕ) (vstr : Str) : Option Bool :=
  if len = vstr.length then (load zl q len).map fun s => s = bytesOf vstr else some false

/- Whether the entry is the text (ziplist.c:1122-1151). `vll` is none until the text has been
read as an integer, and then that integer, if it is one. -/
def matchesEntry (zl : Buf) (q encoding len : ℕ) (vstr : Str) (vll : Option (Option ℤ)) :
    Option (Bool × Option (Option ℤ)) :=
  if isStr encoding then (sameText zl q len vstr).map fun same => (same, vll)
  else match vll.getD ((zipTryEncoding vstr).map Prod.fst) with
    | none => some (false, some none)
    | some v => (loadInteger zl q encoding).map fun ll => (ll = v, some (some v))

/-- `ziplistFind` (ziplist.c:1108). -/
def find (zl : Buf) (vstr : Str) (skip : ℕ) : ℕ → ℕ → ℕ → Option (Option ℤ) → Option (Option ℕ)
  | 0, _, _, _ => none
  | fuel + 1, p, skipcnt, vll => do
    let first ← byteAt zl p
    if first = ZIP_END then some none
    else
      let prevlensize ← decodePrevlensize zl p
      let (encoding, lensize, len) ← decodeLength zl (p + prevlensize)
      let q := p + prevlensize + lensize
      if skipcnt = 0 then
        let (found, vll) ← matchesEntry zl q encoding len vstr vll
        if found then some (some p) else find zl vstr skip fuel (q + len) skip vll
      else find zl vstr skip fuel (q + len) (skipcnt - 1) vll

/- The entries from a position on are counted. -/
def countFrom (zl : Buf) : ℕ → ℕ → Option ℕ
  | 0, _ => none
  | fuel + 1, p => do
    let first ← byteAt zl p
    if first = ZIP_END then some 0
    else
      let len ← rawEntryLength zl p
      let count ← countFrom zl fuel (p + len)
      some (count + 1)

/-- `ziplistLen` (ziplist.c:1168): the list is changed when it could be counted again. -/
def len (zl : Buf) : Option (Buf × ℕ) := do
  let stored ← length zl
  if stored < UINT16_MAX then some (zl, stored)
  else
    let count ← countFrom zl zl.length ZIPLIST_HEADER_SIZE
    if count < UINT16_MAX then (setLength zl count).map fun zl => (zl, count)
    else some (zl, count)

end Ziplist

end NodeServer.Redis

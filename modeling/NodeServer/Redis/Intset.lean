import NodeServer.Lib.Bytes
import NodeServer.Redis.Numbers
import Mathlib.Data.Finset.Insert
import Mathlib.Data.List.Flatten

/-! # Sets of integers (`redis-5.0.2/src/intset.c`)

A small set of integers is one block of memory: the values in ascending order, each in
two, four or eight bytes, whatever the largest needed so far. A value that needs more
bytes makes all of them wider. -/

namespace NodeServer.Redis

open Bytes

/-! ### The functions of `intset.c` -/

structure Intset where
  encoding : ℕ
  length : ℕ
  contents : Buf

def INTSET_ENC_INT16 : ℕ := 2
def INTSET_ENC_INT32 : ℕ := 4
def INTSET_ENC_INT64 : ℕ := 8

def intsetValueEncoding (v : ℤ) : ℕ :=
  if v < -2 ^ 31 ∨ v > 2 ^ 31 - 1 then INTSET_ENC_INT64
  else if v < -2 ^ 15 ∨ v > 2 ^ 15 - 1 then INTSET_ENC_INT32
  else INTSET_ENC_INT16

namespace Intset

def getEncoded (is : Intset) (pos enc : ℕ) : Option ℤ :=
  if enc = INTSET_ENC_INT64 then (load is.contents (pos * 8) 8).map toInt
  else if enc = INTSET_ENC_INT32 then (load is.contents (pos * 4) 4).map toInt
  else (load is.contents (pos * 2) 2).map toInt

def get (is : Intset) (pos : ℕ) : Option ℤ := is.getEncoded pos is.encoding

def set (is : Intset) (pos : ℕ) (value : ℤ) : Option Intset :=
  (if is.encoding = INTSET_ENC_INT64 then store is.contents (pos * 8) (ofInt 8 value)
  else if is.encoding = INTSET_ENC_INT32 then store is.contents (pos * 4) (ofInt 4 value)
  else store is.contents (pos * 2) (ofInt 2 value)).map
    fun contents => { is with contents := contents }

def new : Intset := ⟨INTSET_ENC_INT16, 0, []⟩

/- The size is of type `uint32_t`. -/
def resize (is : Intset) (len : ℕ) (junk : ℕ → UInt8) : Intset :=
  { is with contents := Bytes.resize is.contents (len * is.encoding % 2 ^ 32) junk }

/- The loop of `intsetSearch` (intset.c:135-145): `mid` and `cur` are the last ones. -/
def searchLoop (is : Intset) (value min max mid cur : ℤ) : Option (ℤ × ℤ × ℤ) :=
  if max ≥ min then do
    let mid := (min + max) / 2
    let cur ← is.get mid.toNat
    if value > cur then searchLoop is value (mid + 1) max mid cur
    else if value < cur then searchLoop is value min (mid - 1) mid cur
    else some (min, mid, cur)
  else some (min, mid, cur)
termination_by (max + 1 - min).toNat

def search (is : Intset) (value : ℤ) : Option (Bool × ℕ) :=
  if is.length = 0 then some (false, 0)
  else do
    let max : ℤ := is.length - 1
    let last ← is.get max.toNat
    if value > last then some (false, is.length)
    else
      let first ← is.get 0
      if value < first then some (false, 0)
      else
        let (min, mid, cur) ← is.searchLoop value 0 max (-1) (-1)
        if value = cur then some (true, mid.toNat) else some (false, min.toNat)

/- Back to front, so that no value is overwritten before it is read (intset.c:170). -/
def upgradeLoop (curenc prepend : ℕ) : ℕ → Intset → Option Intset
  | 0, is => some is
  | length + 1, is => do
    let value ← is.getEncoded length curenc
    let is ← is.set (length + prepend) value
    upgradeLoop curenc prepend length is

def upgradeAndAdd (is : Intset) (value : ℤ) (junk : ℕ → UInt8) : Option Intset := do
  let curenc := is.encoding
  let newenc := intsetValueEncoding value
  let prepend := if value < 0 then 1 else 0
  let is := ({ is with encoding := newenc }).resize (is.length + 1) junk
  let is ← upgradeLoop curenc prepend is.length is
  let is ← if prepend = 1 then is.set 0 value else is.set is.length value
  some { is with length := is.length + 1 }

def moveTail (is : Intset) (src dst : ℕ) : Option Intset :=
  let bytes := is.length - src
  (if is.encoding = INTSET_ENC_INT64 then move is.contents (dst * 8) (src * 8) (bytes * 8 % 2 ^ 32)
  else if is.encoding = INTSET_ENC_INT32 then
    move is.contents (dst * 4) (src * 4) (bytes * 4 % 2 ^ 32)
  else move is.contents (dst * 2) (src * 2) (bytes * 2 % 2 ^ 32)).map
    fun contents => { is with contents := contents }

/- The tail goes one place up, if there is one (intset.c:225). -/
def makeRoom (is : Intset) (pos : ℕ) : Option Intset :=
  if pos < is.length then is.moveTail pos (pos + 1) else some is

/- The tail goes one place down (intset.c:246). -/
def closeGap (is : Intset) (pos : ℕ) : Option Intset :=
  if pos < is.length - 1 then is.moveTail (pos + 1) pos else some is

/-- `intsetAdd` (intset.c:204): the set, and whether the value was new. -/
def add (is : Intset) (value : ℤ) (junk : ℕ → UInt8) : Option (Intset × Bool) :=
  if intsetValueEncoding value > is.encoding then
    (is.upgradeAndAdd value junk).map fun is => (is, true)
  else do
    let (found, pos) ← is.search value
    if found then some (is, false)
    else
      let is ← (is.resize (is.length + 1) junk).makeRoom pos
      let is ← is.set pos value
      some ({ is with length := is.length + 1 }, true)

/-- `intsetRemove` (intset.c:234). -/
def remove (is : Intset) (value : ℤ) (junk : ℕ → UInt8) : Option (Intset × Bool) :=
  if intsetValueEncoding value ≤ is.encoding then do
    let (found, pos) ← is.search value
    if found then
      let len := is.length
      let is ← is.closeGap pos
      let is := is.resize (len - 1) junk
      some ({ is with length := len - 1 }, true)
    else some (is, false)
  else some (is, false)

/-- `intsetFind` (intset.c:254). -/
def find (is : Intset) (value : ℤ) : Option Bool :=
  if intsetValueEncoding value ≤ is.encoding then (is.search value).map Prod.fst else some false

/-- `intsetGet` (intset.c:266), `none` when the position is out of range. -/
def getAt (is : Intset) (pos : ℕ) : Option (Option ℤ) :=
  if pos < is.length then (is.get pos).map some else some none

end Intset

/-! ### What a block holds -/

/- The three widths. -/
def IsEncoding (enc : ℕ) : Prop := enc = 2 ∨ enc = 4 ∨ enc = 8

/- The values one after the other. -/
def encoded (w : ℕ) (vals : List ℤ) : Buf := vals.flatMap (ofInt w)

structure Holds (is : Intset) (vals : List ℤ) : Prop where
  enc : IsEncoding is.encoding
  length : is.length = vals.length
  contents : is.contents = encoded is.encoding vals
  fits : ∀ v ∈ vals, Fits is.encoding v
  sorted : vals.Pairwise (· < ·)

section

variable {is : Intset} {vals : List ℤ} {value : ℤ} {enc : ℕ}

theorem encoded_length (w : ℕ) (vals : List ℤ) : (encoded w vals).length = vals.length * w := by
  simp [encoded, List.length_flatMap]

theorem encoded_append (w : ℕ) (as bs : List ℤ) :
    encoded w (as ++ bs) = encoded w as ++ encoded w bs := List.flatMap_append

theorem encoded_cons (w : ℕ) (v : ℤ) (vals : List ℤ) :
    encoded w (v :: vals) = ofInt w v ++ encoded w vals := List.flatMap_cons

/-- A value fits when its own encoding is not wider. -/
theorem fits_iff (henc : IsEncoding enc) (hv : IsLongLong value) :
    intsetValueEncoding value ≤ enc ↔ Fits enc value := by
  unfold IsLongLong LLONG_MIN LLONG_MAX at hv
  unfold intsetValueEncoding INTSET_ENC_INT64 INTSET_ENC_INT32 INTSET_ENC_INT16 Fits
  rcases henc with rfl | rfl | rfl
  · split_ifs <;> omega
  · split_ifs <;> omega
  · split_ifs <;> omega

theorem valueEncoding_isEncoding (value : ℤ) : IsEncoding (intsetValueEncoding value) := by
  unfold intsetValueEncoding INTSET_ENC_INT64 INTSET_ENC_INT32 INTSET_ENC_INT16 IsEncoding
  split_ifs <;> omega

/-! ### One width for all branches -/

theorem getEncoded_eq (henc : IsEncoding enc) (is : Intset) (pos : ℕ) :
    is.getEncoded pos enc = (load is.contents (pos * enc) enc).map toInt := by
  rcases henc with rfl | rfl | rfl <;> rfl

theorem set_eq (henc : IsEncoding is.encoding) (pos : ℕ) (value : ℤ) :
    is.set pos value = (store is.contents (pos * is.encoding) (ofInt is.encoding value)).map
      fun contents => { is with contents := contents } := by
  rcases is with ⟨enc, len, contents⟩
  rcases henc with h | h | h <;> cases h <;> rfl

theorem moveTail_eq (henc : IsEncoding is.encoding) (src dst : ℕ) :
    is.moveTail src dst = (move is.contents (dst * is.encoding) (src * is.encoding)
      ((is.length - src) * is.encoding % 2 ^ 32)).map
      fun contents => { is with contents := contents } := by
  rcases is with ⟨enc, len, contents⟩
  rcases henc with h | h | h <;> cases h <;> rfl

/-! ### Looking a value up -/

theorem Holds.get (h : Holds is vals) {i : ℕ} (hi : i < vals.length) :
    is.get i = some (vals.get ⟨i, hi⟩) := by
  have hsplit : vals = vals.take i ++ (vals.get ⟨i, hi⟩ :: vals.drop (i + 1)) := by
    rw [List.get_eq_getElem, List.getElem_cons_drop, List.take_append_drop]
  have hload : load is.contents (i * is.encoding) is.encoding =
      some (ofInt is.encoding (vals.get ⟨i, hi⟩)) := by
    rw [h.contents]
    conv_lhs => rw [hsplit]
    rw [encoded_append, encoded_cons, ← List.append_assoc]
    refine load_append ?_ (by simp)
    rw [encoded_length, List.length_take, Nat.min_eq_left (Nat.le_of_lt hi)]
  rw [Intset.get, getEncoded_eq h.enc, hload, Option.map_some,
    toInt_ofInt (h.fits _ (List.get_mem vals ⟨i, hi⟩))]

theorem Holds.get_lt (h : Holds is vals) {i j : ℕ} (hij : i < j) (hj : j < vals.length) :
    vals.get ⟨i, by omega⟩ < vals.get ⟨j, hj⟩ :=
  List.pairwise_iff_get.mp h.sorted ⟨i, by omega⟩ ⟨j, hj⟩ hij

/- The values below `min` are smaller and those above `max` are greater. -/
structure Bracket (vals : List ℤ) (value min max : ℤ) : Prop where
  nonneg : 0 ≤ min
  bound : max < vals.length
  near : min ≤ max + 1
  below : ∀ (i : ℕ) (hi : i < vals.length), (i : ℤ) < min → vals.get ⟨i, hi⟩ < value
  above : ∀ (i : ℕ) (hi : i < vals.length), max < i → value < vals.get ⟨i, hi⟩

/- How the search ends: at the value, or between its neighbours. -/
inductive Located (vals : List ℤ) (value : ℤ) : Bool → ℕ → Prop
  | found (below above : List ℤ) (split : vals = below ++ value :: above) :
      Located vals value true below.length
  | missing (below above : List ℤ) (split : vals = below ++ above)
      (smaller : ∀ v ∈ below, v < value) (greater : ∀ v ∈ above, value < v) :
      Located vals value false below.length

theorem Located.at {pos : ℕ} (hpos : pos < vals.length) (h : vals.get ⟨pos, hpos⟩ = value) :
    Located vals value true pos := by
  have hsplit : vals = vals.take pos ++ (value :: vals.drop (pos + 1)) := by
    rw [← h, List.get_eq_getElem, List.getElem_cons_drop, List.take_append_drop]
  have hlocated := Located.found _ _ hsplit
  rwa [List.length_take, Nat.min_eq_left (Nat.le_of_lt hpos)] at hlocated

theorem Bracket.missing {min max : ℤ} (h : Bracket vals value min max) (hdone : max < min) :
    Located vals value false min.toNat := by
  have hle : min.toNat ≤ vals.length := by
    have := h.bound
    have := h.near
    omega
  rw [← Nat.min_eq_left hle, ← List.length_take]
  refine Located.missing (vals.take min.toNat) (vals.drop min.toNat)
    (List.take_append_drop _ _).symm ?_ ?_
  · intro v hv
    obtain ⟨i, hi, rfl⟩ := List.mem_take_iff_getElem.mp hv
    exact h.below i (by omega) (by omega)
  · intro v hv
    obtain ⟨i, hi, rfl⟩ := List.mem_drop_iff_getElem.mp hv
    exact h.above _ (by omega) (by omega)

theorem Bracket.raise {min max : ℤ} (h : Bracket vals value min max) (hs : Holds is vals)
    {mid : ℕ} (hmid : mid < vals.length) (hmax : (mid : ℤ) ≤ max)
    (hless : vals.get ⟨mid, hmid⟩ < value) : Bracket vals value (mid + 1) max := by
  refine ⟨by omega, h.bound, by omega, ?_, h.above⟩
  intro i hi hlt
  rcases Nat.lt_or_ge i mid with hsmall | hlarge
  · exact lt_trans (hs.get_lt hsmall hmid) hless
  · obtain rfl : i = mid := by omega
    exact hless

theorem Bracket.lower {min max : ℤ} (h : Bracket vals value min max) (hs : Holds is vals)
    {mid : ℕ} (hmid : mid < vals.length) (hmin : min ≤ mid)
    (hless : value < vals.get ⟨mid, hmid⟩) : Bracket vals value min (mid - 1) := by
  refine ⟨h.nonneg, by omega, by omega, h.below, ?_⟩
  intro i hi hlt
  rcases Nat.lt_or_ge mid i with hlarge | hsmall
  · exact lt_trans hless (hs.get_lt hlarge hi)
  · obtain rfl : i = mid := by omega
    exact hless

/-- The loop narrows the bracket until it is empty or its middle is the value. -/
theorem searchLoop_spec (hs : Holds is vals) (n : ℕ) {min max : ℤ} (mid cur : ℤ)
    (hn : (max + 1 - min).toNat = n) (h : Bracket vals value min max)
    (hcur : max < min → value ≠ cur) :
    ∃ min' mid' cur', is.searchLoop value min max mid cur = some (min', mid', cur') ∧
      (value = cur' → Located vals value true mid'.toNat) ∧
      (value ≠ cur' → Located vals value false min'.toNat) := by
  induction n using Nat.strong_induction_on generalizing min max mid cur with
  | _ n ih =>
    rw [Intset.searchLoop]
    by_cases hgo : max ≥ min
    · have hmin := h.nonneg
      have hmax := h.bound
      obtain ⟨m, hm⟩ : ∃ m : ℕ, (min + max) / 2 = m := ⟨((min + max) / 2).toNat, by omega⟩
      have hlen : m < vals.length := by omega
      simp only [if_pos hgo, hm, Int.toNat_natCast, hs.get hlen, Option.bind_eq_bind, Option.bind_some]
      by_cases hgt : value > vals.get ⟨m, hlen⟩
      · rw [if_pos hgt]
        exact ih _ (by omega) _ _ rfl (h.raise hs hlen (by omega) hgt) fun _ => hgt.ne'
      · rw [if_neg hgt]
        by_cases hlt : value < vals.get ⟨m, hlen⟩
        · rw [if_pos hlt]
          exact ih _ (by omega) _ _ rfl (h.lower hs hlen (by omega) hlt) fun _ => hlt.ne
        · rw [if_neg hlt]
          have heq : vals.get ⟨m, hlen⟩ = value := by omega
          refine ⟨_, _, _, rfl, fun _ => ?_, fun hne => absurd heq.symm hne⟩
          exact Located.at (by simpa using hlen) (by simpa using heq)
    · rw [if_neg hgo]
      refine ⟨_, _, _, rfl, fun heq => absurd heq (hcur (by omega)), fun _ => h.missing (by omega)⟩

/-- `intsetSearch` finds the value, or the place where it belongs. -/
theorem search_spec (hs : Holds is vals) (value : ℤ) :
    ∃ found pos, is.search value = some (found, pos) ∧ Located vals value found pos := by
  unfold Intset.search
  by_cases hzero : is.length = 0
  · rw [if_pos hzero]
    have hnil : vals = [] := List.eq_nil_of_length_eq_zero (by rw [← hs.length, hzero])
    exact ⟨false, 0, rfl, .missing [] [] hnil (by simp) (by simp)⟩
  · have hlength := hs.length
    have hlast : vals.length - 1 < vals.length := by omega
    have hfirst : 0 < vals.length := by omega
    have hmax : ((is.length : ℤ) - 1).toNat = vals.length - 1 := by omega
    simp only [if_neg hzero, hmax, hs.get hlast, hs.get hfirst, Option.bind_eq_bind, Option.bind_some]
    split_ifs with hgt hlt
    · have hb : Bracket vals value vals.length (vals.length - 1) := by
        refine ⟨by omega, by omega, by omega, ?_, ?_⟩
        · intro i hi _
          rcases Nat.lt_or_ge i (vals.length - 1) with hsmall | hlarge
          · exact lt_trans (hs.get_lt hsmall hlast) hgt
          · obtain rfl : i = vals.length - 1 := by omega
            exact hgt
        · intro i hi hlt
          omega
      have hmissing := hb.missing (by omega)
      rw [Int.toNat_natCast] at hmissing
      exact ⟨_, _, rfl, hlength ▸ hmissing⟩
    · have hb : Bracket vals value 0 (-1) := by
        refine ⟨by omega, by omega, by omega, ?_, ?_⟩
        · intro i hi hneg
          omega
        · intro i hi _
          rcases Nat.eq_zero_or_pos i with rfl | hpos
          · exact hlt
          · exact lt_trans hlt (hs.get_lt hpos hi)
      exact ⟨_, _, rfl, hb.missing (by omega)⟩
    · have hb : Bracket vals value 0 (is.length - 1) :=
        ⟨by omega, by omega, by omega, fun i hi hneg => by omega, fun i hi hbig => by omega⟩
      obtain ⟨min, mid, cur, hloop, hfound, hmissing⟩ := searchLoop_spec hs _ (-1) (-1)
        rfl hb fun h => by omega
      rw [hloop, Option.bind_some]
      dsimp only
      by_cases heq : value = cur
      · rw [if_pos heq]
        exact ⟨_, _, rfl, hfound heq⟩
      · rw [if_neg heq]
        exact ⟨_, _, rfl, hmissing heq⟩

/-! ### Wider values -/

/- While the values are made wider: those before the position still have the old width,
and behind them there is room up to where the new width begins. -/
structure Widening (is : Intset) (vals : List ℤ) (curenc prepend k : ℕ) (tail : Buf) : Prop where
  enc : IsEncoding is.encoding
  length : is.length = vals.length
  contents : ∃ gap, is.contents =
      encoded curenc (vals.take k) ++ gap ++ encoded is.encoding (vals.drop k) ++ tail ∧
    k * curenc + gap.length = (k + prepend) * is.encoding

theorem Widening.step {curenc prepend k : ℕ} {tail : Buf}
    (h : Widening is vals curenc prepend (k + 1) tail) (hcur : IsEncoding curenc)
    (hle : curenc ≤ is.encoding) (hk : k + 1 ≤ vals.length) (hfits : ∀ v ∈ vals, Fits curenc v) :
    ∃ is', (is.getEncoded k curenc).bind (is.set (k + prepend)) = some is' ∧
      is'.encoding = is.encoding ∧ Widening is' vals curenc prepend k tail := by
  obtain ⟨gap, hcontents, hroom⟩ := h.contents
  have hget : vals.take (k + 1) = vals.take k ++ [vals.get ⟨k, by omega⟩] := by
    rw [List.get_eq_getElem, List.take_append_getElem]
  have hdrop : vals.drop k = vals.get ⟨k, by omega⟩ :: vals.drop (k + 1) := by
    rw [List.get_eq_getElem, List.getElem_cons_drop]
  generalize vals.get ⟨k, by omega⟩ = v at hget hdrop
  have hv : Fits curenc v := hfits v (List.mem_of_mem_take (hget ▸ List.mem_append_right _ (by simp)))
  have hfront : (encoded curenc (vals.take k)).length = k * curenc := by
    rw [encoded_length, List.length_take, Nat.min_eq_left (by omega)]
  rw [hget, encoded_append, encoded_cons] at hcontents
  have hold : (k + 1) * curenc = k * curenc + curenc := Nat.succ_mul k curenc
  have hnew : (k + 1 + prepend) * is.encoding = (k + prepend) * is.encoding + is.encoding := by
    rw [Nat.add_right_comm, Nat.succ_mul]
  -- the slot written lies behind the values that are still to be read
  have hbehind : k * curenc ≤ (k + prepend) * is.encoding := Nat.mul_le_mul (by omega) hle
  have hload : load is.contents (k * curenc) curenc = some (ofInt curenc v) := by
    rw [hcontents]
    simp only [encoded, List.flatMap_nil, List.append_nil, List.append_assoc]
    rw [← List.append_assoc (List.flatMap _ _)]
    exact load_append hfront.symm (by simp)
  obtain ⟨first, slot, hslot, hfirst⟩ : ∃ first slot, ofInt curenc v ++ gap = first ++ slot ∧
      first.length = (k + prepend) * is.encoding - k * curenc :=
    ⟨_, _, (List.take_append_drop ((k + prepend) * is.encoding - k * curenc) _).symm, by
      rw [List.length_take, List.length_append, ofInt_length]
      omega⟩
  have hwidth : slot.length = is.encoding := by
    have hboth := congrArg List.length hslot
    rw [List.length_append, List.length_append, ofInt_length] at hboth
    omega
  have hstore : store is.contents ((k + prepend) * is.encoding) (ofInt is.encoding v) =
      some (encoded curenc (vals.take k) ++ first ++ ofInt is.encoding v ++
        (encoded is.encoding (vals.drop (k + 1)) ++ tail)) := by
    have hsplit : is.contents = encoded curenc (vals.take k) ++ first ++ slot ++
        (encoded is.encoding (vals.drop (k + 1)) ++ tail) := by
      rw [hcontents, List.append_assoc _ first slot, ← hslot]
      simp [encoded]
    rw [hsplit]
    refine store_append ?_ (by rw [ofInt_length, hwidth])
    rw [List.length_append, hfront, hfirst]
    omega
  refine ⟨{ is with contents := encoded curenc (vals.take k) ++ first ++ ofInt is.encoding v ++
    (encoded is.encoding (vals.drop (k + 1)) ++ tail) }, ?_, rfl, h.enc, h.length, first, ?_, ?_⟩
  · rw [getEncoded_eq hcur, hload, Option.map_some, toInt_ofInt hv, Option.bind_some, set_eq h.enc,
      hstore, Option.map_some]
  · simp only [hdrop, encoded_cons, List.append_assoc]
  · dsimp only
    omega

/-- All values have the new width in the end. -/
theorem upgradeLoop_spec {curenc prepend : ℕ} {tail : Buf} (k : ℕ) {is : Intset}
    (h : Widening is vals curenc prepend k tail) (hcur : IsEncoding curenc)
    (hle : curenc ≤ is.encoding) (hk : k ≤ vals.length) (hfits : ∀ v ∈ vals, Fits curenc v) :
    ∃ is', Intset.upgradeLoop curenc prepend k is = some is' ∧ is'.encoding = is.encoding ∧
      Widening is' vals curenc prepend 0 tail := by
  induction k generalizing is with
  | zero => exact ⟨is, rfl, rfl, h⟩
  | succ k ih =>
    obtain ⟨is₁, hstep, henc, h₁⟩ := h.step hcur hle hk hfits
    obtain ⟨is₂, hrest, henc₂, h₂⟩ := ih h₁ (henc ▸ hle) (by omega)
    refine ⟨is₂, ?_, henc₂.trans henc, h₂⟩
    obtain ⟨value, hvalue, hset⟩ := Option.bind_eq_some_iff.mp hstep
    rw [Intset.upgradeLoop, hvalue, Option.bind_eq_bind, Option.bind_some, hset, Option.bind_eq_bind,
      Option.bind_some, hrest]

/-- A value that does not fit lies outside of all that do. -/
theorem not_fits {v : ℤ} (hv : Fits enc v) (hvalue : ¬ Fits enc value) :
    (value < 0 → value < v) ∧ (¬ value < 0 → v < value) := by
  unfold Fits at hv hvalue
  have hpos : (0 : ℤ) < 256 ^ enc := by positivity
  omega

theorem encoding_le_eight (h : IsEncoding enc) : 0 < enc ∧ enc ≤ 8 := by
  rcases h with rfl | rfl | rfl <;> decide

/- The size of a block that is not too long is computed without overflow. -/
theorem size_eq {n : ℕ} (henc : IsEncoding enc) (hn : n * 8 < 2 ^ 32) :
    n * enc % 2 ^ 32 = n * enc := by
  have hle : n * enc ≤ n * 8 := Nat.mul_le_mul_left n (encoding_le_eight henc).2
  exact Nat.mod_eq_of_lt (by omega)

section

variable {curenc newenc : ℕ} {fresh : Buf} (hnew : IsEncoding newenc) (hcur : IsEncoding curenc)
  (hle : curenc ≤ newenc) (hfits : ∀ v ∈ vals, Fits curenc v)
  (hfresh : vals.length * curenc + fresh.length = (vals.length + 1) * newenc)
include hnew hcur hle hfits hfresh

/-- The values are made wider with the first slot kept free for a negative one. -/
theorem upgradeLoop_front (value : ℤ) :
    ∃ is, Intset.upgradeLoop curenc 1 vals.length
        ⟨newenc, vals.length, encoded curenc vals ++ fresh⟩ = some is ∧
      is.set 0 value = some ⟨newenc, vals.length, encoded newenc (value :: vals)⟩ := by
  have hstart : Widening ⟨newenc, vals.length, encoded curenc vals ++ fresh⟩ vals curenc 1
      vals.length [] := by
    refine ⟨hnew, rfl, fresh, ?_, hfresh⟩
    simp [encoded]
  obtain ⟨is, hloop, henc, h⟩ := upgradeLoop_spec vals.length hstart hcur hle (le_refl _) hfits
  obtain ⟨gap, hcontents, hroom⟩ := h.contents
  simp only [List.take_zero, List.drop_zero, encoded, List.flatMap_nil, List.nil_append,
    List.append_nil, Nat.zero_mul, Nat.zero_add, Nat.one_mul] at hcontents hroom
  have hstore : store is.contents (0 * is.encoding) (ofInt is.encoding value) =
      some ([] ++ ofInt is.encoding value ++ encoded is.encoding vals) := by
    rw [hcontents, Nat.zero_mul, ← List.nil_append gap]
    exact store_append rfl (by simp [hroom])
  refine ⟨is, hloop, ?_⟩
  rw [set_eq h.enc, hstore, Option.map_some, h.length, henc, encoded_cons, List.nil_append]

/-- The values are made wider with the last slot kept free. -/
theorem upgradeLoop_back (value : ℤ) :
    ∃ is, Intset.upgradeLoop curenc 0 vals.length
        ⟨newenc, vals.length, encoded curenc vals ++ fresh⟩ = some is ∧
      is.set is.length value = some ⟨newenc, vals.length, encoded newenc (vals ++ [value])⟩ := by
  have hsucc : (vals.length + 1) * newenc = vals.length * newenc + newenc := Nat.succ_mul _ _
  have hmul : vals.length * curenc ≤ vals.length * newenc := Nat.mul_le_mul_left _ hle
  obtain ⟨gap, tail, rfl, hgap⟩ : ∃ gap tail, fresh = gap ++ tail ∧
      gap.length = vals.length * newenc - vals.length * curenc :=
    ⟨_, _, (List.take_append_drop (vals.length * newenc - vals.length * curenc) _).symm, by
      rw [List.length_take]
      omega⟩
  rw [List.length_append] at hfresh
  have hstart : Widening ⟨newenc, vals.length, encoded curenc vals ++ (gap ++ tail)⟩ vals curenc 0
      vals.length tail := by
    refine ⟨hnew, rfl, gap, ?_, ?_⟩
    · simp [encoded]
    · rw [Nat.add_zero]
      dsimp only
      omega
  obtain ⟨is, hloop, henc, h⟩ := upgradeLoop_spec vals.length hstart hcur hle (le_refl _) hfits
  obtain ⟨none, hcontents, hroom⟩ := h.contents
  rw [Nat.zero_mul, Nat.zero_add, Nat.zero_mul, List.length_eq_zero_iff] at hroom
  simp only [hroom, List.take_zero, List.drop_zero, encoded, List.flatMap_nil, List.nil_append]
    at hcontents
  have hstore : store is.contents (is.length * is.encoding) (ofInt is.encoding value) =
      some (encoded is.encoding vals ++ ofInt is.encoding value ++ []) := by
    rw [hcontents, ← List.append_nil (_ ++ tail)]
    refine store_append ?_ ?_
    · rw [h.length]
      exact (encoded_length _ _).symm
    · rw [ofInt_length, henc]
      dsimp only
      omega
  refine ⟨is, hloop, ?_⟩
  rw [set_eq h.enc, hstore, Option.map_some, h.length, henc, encoded_append]
  simp [encoded]

end

theorem Holds.upgradeAndAdd (hs : Holds is vals) (hv : IsLongLong value)
    (hwide : is.encoding < intsetValueEncoding value) (hsmall : (vals.length + 1) * 8 < 2 ^ 32)
    (junk : ℕ → UInt8) :
    ∃ is', is.upgradeAndAdd value junk = some is' ∧
      Holds is' (if value < 0 then value :: vals else vals ++ [value]) := by
  have hnewenc := valueEncoding_isEncoding value
  have hvalue : Fits (intsetValueEncoding value) value := (fits_iff hnewenc hv).mp (le_refl _)
  have hnot : ¬ Fits is.encoding value := fun h => by
    have := (fits_iff hs.enc hv).mpr h
    omega
  have hfits' : ∀ v ∈ vals, Fits (intsetValueEncoding value) v :=
    fun v hv => (hs.fits v hv).mono hwide.le
  generalize hnew : intsetValueEncoding value = newenc at *
  have hgrow : (encoded is.encoding vals).length ≤ (vals.length + 1) * newenc := by
    rw [encoded_length]
    exact Nat.mul_le_mul (by omega) hwide.le
  obtain ⟨fresh, hresize, hfresh⟩ := resize_grow junk hgrow
  have hroom : vals.length * is.encoding + fresh.length = (vals.length + 1) * newenc := by
    rw [encoded_length] at hfresh hgrow
    omega
  have hsized : (({ is with encoding := newenc } : Intset).resize (is.length + 1) junk) =
      ⟨newenc, is.length, encoded is.encoding vals ++ fresh⟩ := by
    simp only [Intset.resize, hs.length, size_eq hnewenc hsmall, hs.contents, hresize]
  unfold Intset.upgradeAndAdd
  simp only [hnew, hsized]
  by_cases hneg : value < 0
  · simp only [hneg, if_true, hs.length]
    obtain ⟨is', hloop, hset⟩ := upgradeLoop_front hnewenc hs.enc hwide.le hs.fits hroom value
    refine ⟨⟨newenc, vals.length + 1, encoded newenc (value :: vals)⟩, ?_, hnewenc, rfl, rfl, ?_, ?_⟩
    · rw [hloop, Option.bind_eq_bind, Option.bind_some, hset]
      rfl
    · exact List.forall_mem_cons.mpr ⟨hvalue, hfits'⟩
    · exact List.pairwise_cons.mpr ⟨fun v hmem => (not_fits (hs.fits v hmem) hnot).1 hneg, hs.sorted⟩
  · simp only [hneg, if_false, hs.length]
    obtain ⟨is', hloop, hset⟩ := upgradeLoop_back hnewenc hs.enc hwide.le hs.fits hroom value
    refine ⟨⟨newenc, vals.length + 1, encoded newenc (vals ++ [value])⟩, ?_, hnewenc, ?_, rfl, ?_, ?_⟩
    · rw [hloop, Option.bind_eq_bind, Option.bind_some, if_neg (by decide), hset]
      rfl
    · rw [List.length_append, List.length_singleton]
    · intro v hmem
      rcases List.mem_append.mp hmem with hmem | hmem
      · exact hfits' v hmem
      · rw [List.mem_singleton.mp hmem]
        exact hvalue
    · refine List.pairwise_append.mpr ⟨hs.sorted, List.pairwise_singleton _ _, ?_⟩
      intro v hmem u hu
      rw [List.mem_singleton.mp hu]
      exact (not_fits (hs.fits v hmem) hnot).2 hneg

/-! ### Adding and removing -/

section

variable {below above : List ℤ}

/-- The tail is moved to make room for one more value. -/
theorem Holds.opened (hs : Holds is (below ++ above))
    (hsmall : ((below ++ above).length + 1) * 8 < 2 ^ 32) (junk : ℕ → UInt8) :
    ∃ slot, slot.length = is.encoding ∧ (is.resize (is.length + 1) junk).makeRoom below.length =
      some { is with contents := encoded is.encoding below ++ slot ++ encoded is.encoding above } := by
  have hlength := hs.length
  have hgrow : is.contents.length ≤ (is.length + 1) * is.encoding := by
    rw [hs.contents, encoded_length, ← hlength]
    exact Nat.mul_le_mul_right _ (by omega)
  obtain ⟨fresh, hresize, hfresh⟩ := resize_grow junk hgrow
  rw [← hlength] at hsmall
  have hsized : is.resize (is.length + 1) junk =
      { is with contents := encoded is.encoding below ++ encoded is.encoding above ++ fresh } := by
    rw [Intset.resize, size_eq hs.enc hsmall, hresize, hs.contents, encoded_append]
  have hwidth : fresh.length = is.encoding := by
    rw [hfresh, hs.contents, encoded_length, ← hlength, Nat.succ_mul]
    omega
  rw [hsized, Intset.makeRoom]
  dsimp only
  rw [List.length_append] at hlength
  by_cases htail : below.length < is.length
  · rw [if_pos htail, moveTail_eq (by exact hs.enc)]
    have hbytes : (is.length - below.length) * is.encoding % 2 ^ 32 =
        (encoded is.encoding above).length := by
      rw [size_eq hs.enc (by omega), encoded_length, hlength, Nat.add_sub_cancel_left]
    have hdst : (below.length + 1) * is.encoding =
        (encoded is.encoding below).length + fresh.length := by
      rw [encoded_length, hwidth, Nat.succ_mul]
    obtain ⟨slot, hmove, hslot⟩ :=
      @move_right _ _ _ _ _ [] _ (encoded_length is.encoding below).symm hbytes hdst
    rw [List.append_nil, List.append_nil] at hmove
    exact ⟨slot, hslot.trans hwidth, by rw [hmove]; rfl⟩
  · have hnil : above = [] := List.eq_nil_of_length_eq_zero (by omega)
    rw [if_neg htail]
    exact ⟨fresh, hwidth, by simp [hnil, encoded]⟩

theorem Holds.inserted (hs : Holds is (below ++ above)) (hv : Fits is.encoding value)
    (hsmaller : ∀ v ∈ below, v < value) (hgreater : ∀ v ∈ above, value < v) :
    Holds ⟨is.encoding, is.length + 1, encoded is.encoding (below ++ value :: above)⟩
      (below ++ value :: above) := by
  refine ⟨hs.enc, ?_, rfl, ?_, ?_⟩
  · have hlength := hs.length
    simp only [List.length_append, List.length_cons] at hlength ⊢
    omega
  · intro v hmem
    rcases List.mem_append.mp hmem with hmem | hmem
    · exact hs.fits v (List.mem_append_left _ hmem)
    · rcases List.mem_cons.mp hmem with rfl | hmem
      · exact hv
      · exact hs.fits v (List.mem_append_right _ hmem)
  · obtain ⟨hbelow, habove, hcross⟩ := List.pairwise_append.mp hs.sorted
    refine List.pairwise_append.mpr ⟨hbelow, List.pairwise_cons.mpr ⟨hgreater, habove⟩, ?_⟩
    intro v hmem u hu
    rcases List.mem_cons.mp hu with rfl | hu
    · exact hsmaller v hmem
    · exact hcross v hmem u hu

/-- The tail is moved over the value that goes. -/
theorem Holds.closed (hs : Holds is (below ++ value :: above))
    (hsmall : (below ++ value :: above).length * 8 < 2 ^ 32) :
    ∃ rest, is.closeGap below.length =
      some { is with contents := encoded is.encoding below ++ encoded is.encoding above ++ rest } := by
  unfold Intset.closeGap
  have hlength := hs.length
  simp only [List.length_append, List.length_cons] at hlength hsmall
  have hcontents : is.contents =
      encoded is.encoding below ++ ofInt is.encoding value ++ encoded is.encoding above := by
    rw [hs.contents, encoded_append, encoded_cons, List.append_assoc]
  by_cases htail : below.length < is.length - 1
  · rw [if_pos htail, moveTail_eq hs.enc, hcontents]
    have hsrc : (below.length + 1) * is.encoding =
        (encoded is.encoding below).length + (ofInt is.encoding value).length := by
      rw [encoded_length, ofInt_length, Nat.succ_mul]
    have hbytes : (is.length - (below.length + 1)) * is.encoding % 2 ^ 32 =
        (encoded is.encoding above).length := by
      rw [size_eq hs.enc (by omega), encoded_length]
      congr 1
      omega
    obtain ⟨rest, hmove, -⟩ :=
      @move_left _ _ _ _ _ [] _ (encoded_length is.encoding below).symm hsrc hbytes
    rw [List.append_nil, List.append_nil] at hmove
    exact ⟨rest, by rw [hmove]; rfl⟩
  · have hnil : above = [] := List.eq_nil_of_length_eq_zero (by omega)
    rw [if_neg htail]
    refine ⟨ofInt is.encoding value, ?_⟩
    rcases is with ⟨enc, len, contents⟩
    simp only [hnil, encoded, List.flatMap_nil, List.append_nil] at hcontents ⊢
    rw [hcontents]

theorem Holds.removed (hs : Holds is (below ++ value :: above)) :
    Holds ⟨is.encoding, is.length - 1, encoded is.encoding (below ++ above)⟩ (below ++ above) := by
  have hsub : (below ++ above).Sublist (below ++ value :: above) :=
    (List.Sublist.refl below).append (List.sublist_cons_self value above)
  refine ⟨hs.enc, ?_, rfl, fun v hmem => hs.fits v (hsub.subset hmem), hs.sorted.sublist hsub⟩
  have hlength := hs.length
  simp only [List.length_append, List.length_cons] at hlength ⊢
  omega

end

theorem Located.mem {found : Bool} {pos : ℕ} (h : Located vals value found pos) :
    found = decide (value ∈ vals) := by
  cases h with
  | found below above split => simp [split]
  | missing below above split smaller greater =>
    have hnot : value ∉ vals := by
      rw [split]
      intro hmem
      rcases List.mem_append.mp hmem with hmem | hmem
      · exact lt_irrefl _ (smaller value hmem)
      · exact lt_irrefl _ (greater value hmem)
    simp [hnot]

/-- What `intsetAdd` does to a sorted list of values: a new one needs room. -/
theorem Holds.add (hs : Holds is vals) (hv : IsLongLong value)
    (hsmall : value ∉ vals → (vals.length + 1) * 8 < 2 ^ 32) (junk : ℕ → UInt8) :
    ∃ is' vals', is.add value junk = some (is', decide (value ∉ vals)) ∧ Holds is' vals' ∧
      ∀ v, v ∈ vals' ↔ v = value ∨ v ∈ vals := by
  unfold Intset.add
  by_cases hwide : intsetValueEncoding value > is.encoding
  · have hnot : value ∉ vals := by
      intro hmem
      have := (fits_iff hs.enc hv).mpr (hs.fits value hmem)
      omega
    obtain ⟨is', hadd, h'⟩ := hs.upgradeAndAdd hv hwide (hsmall hnot) junk
    refine ⟨is', _, ?_, h', ?_⟩
    · simp [hwide, hadd, hnot]
    · intro v
      split_ifs
      · simp
      · simp [or_comm]
  · have hfits : Fits is.encoding value := (fits_iff hs.enc hv).mp (by omega)
    rw [if_neg hwide]
    obtain ⟨found, pos, hsearch, hlocated⟩ := search_spec hs value
    rw [hsearch, Option.bind_eq_bind, Option.bind_some]
    have hfound := hlocated.mem
    cases hlocated with
    | found below above split =>
      have hmem : value ∈ vals := by simpa using hfound.symm
      refine ⟨is, vals, by simp [hmem], hs, ?_⟩
      intro v
      constructor
      · exact Or.inr
      · rintro (rfl | hv)
        · exact hmem
        · exact hv
    | missing below above split smaller greater =>
      subst split
      have hnot : value ∉ below ++ above := by simpa using hfound
      obtain ⟨slot, hslot, hopened⟩ := hs.opened (hsmall hnot) junk
      refine ⟨_, below ++ value :: above, ?_, hs.inserted hfits smaller greater, ?_⟩
      · have hstore : store (encoded is.encoding below ++ slot ++ encoded is.encoding above)
            (below.length * is.encoding) (ofInt is.encoding value) =
            some (encoded is.encoding below ++ ofInt is.encoding value ++ encoded is.encoding above) :=
          store_append (encoded_length is.encoding below).symm
            ((ofInt_length is.encoding value).trans hslot.symm)
        simp only [Bool.false_eq_true, if_false, hopened, Option.bind_eq_bind, Option.bind_some]
        rw [set_eq (by exact hs.enc)]
        dsimp only
        rw [hstore]
        simp [hnot, encoded_append, encoded_cons]
      · intro v
        simp only [List.mem_append, List.mem_cons]
        tauto

theorem Holds.remove (hs : Holds is vals) (hv : IsLongLong value)
    (hsmall : vals.length * 8 < 2 ^ 32) (junk : ℕ → UInt8) :
    ∃ is' vals', is.remove value junk = some (is', decide (value ∈ vals)) ∧ Holds is' vals' ∧
      ∀ v, v ∈ vals' ↔ v ≠ value ∧ v ∈ vals := by
  have hkept : value ∉ vals → ∀ v, v ∈ vals ↔ v ≠ value ∧ v ∈ vals := by
    intro hnot v
    constructor
    · exact fun hmem => ⟨fun heq => hnot (heq ▸ hmem), hmem⟩
    · exact fun h => h.2
  unfold Intset.remove
  by_cases hwide : intsetValueEncoding value ≤ is.encoding
  · rw [if_pos hwide]
    obtain ⟨found, pos, hsearch, hlocated⟩ := search_spec hs value
    rw [hsearch, Option.bind_eq_bind, Option.bind_some]
    have hfound := hlocated.mem
    cases hlocated with
    | found below above split =>
      subst split
      obtain ⟨rest, hclosed⟩ := hs.closed hsmall
      have hlength := hs.length
      have hresize : (⟨is.encoding, is.length,
            encoded is.encoding below ++ encoded is.encoding above ++ rest⟩ : Intset).resize
            (is.length - 1) junk =
          ⟨is.encoding, is.length, encoded is.encoding (below ++ above)⟩ := by
        rw [Intset.resize]
        dsimp only
        rw [size_eq hs.enc (by omega), encoded_append, resize_shrink]
        rw [List.length_append, encoded_length, encoded_length, ← Nat.add_mul]
        simp only [List.length_append, List.length_cons] at hlength
        congr 1
        omega
      refine ⟨_, below ++ above, ?_, hs.removed, ?_⟩
      · simp only [if_true, hclosed, Option.bind_eq_bind, Option.bind_some, hresize, ← hfound]
      · intro v
        obtain ⟨_, habove, hcross⟩ := List.pairwise_append.mp hs.sorted
        have hlt := (List.pairwise_cons.mp habove).1
        simp only [List.mem_append, List.mem_cons]
        constructor
        · rintro (hmem | hmem)
          · exact ⟨(hcross v hmem value (List.mem_cons_self ..)).ne, Or.inl hmem⟩
          · exact ⟨(hlt v hmem).ne', Or.inr (Or.inr hmem)⟩
        · rintro ⟨hne, hmem | rfl | hmem⟩
          · exact Or.inl hmem
          · exact absurd rfl hne
          · exact Or.inr hmem
    | missing below above split smaller greater =>
      have hnot : value ∉ vals := by simpa using hfound
      exact ⟨is, vals, by simp [hnot], hs, hkept hnot⟩
  · have hnot : value ∉ vals := fun hmem => hwide ((fits_iff hs.enc hv).mpr (hs.fits value hmem))
    exact ⟨is, vals, by simp [hwide, hnot], hs, hkept hnot⟩

theorem Holds.find (hs : Holds is vals) (hv : IsLongLong value) :
    is.find value = some (decide (value ∈ vals)) := by
  unfold Intset.find
  by_cases hwide : intsetValueEncoding value ≤ is.encoding
  · obtain ⟨found, pos, hsearch, hlocated⟩ := search_spec hs value
    rw [if_pos hwide, hsearch, Option.map_some, hlocated.mem]
  · have hnot : value ∉ vals := fun hmem => hwide ((fits_iff hs.enc hv).mpr (hs.fits value hmem))
    simp [hwide, hnot]

end

/-! ### Whole runs -/

inductive IntsetOp where
  | add (value : ℤ)
  | remove (value : ℤ)
  | find (value : ℤ)

namespace IntsetOp

def value : IntsetOp → ℤ
  | add value | remove value | find value => value

/- With the bytes that `zrealloc` leaves in the new memory. -/
def run (junk : ℕ → UInt8) : IntsetOp → Intset → Option (Intset × Bool)
  | add value, is => is.add value junk
  | remove value, is => is.remove value junk
  | find value, is => (is.find value).map fun found => (is, found)

/- What the operation is for. -/
def apply : IntsetOp → Finset ℤ → Finset ℤ × Bool
  | add value, s => (insert value s, decide (value ∉ s))
  | remove value, s => (s.erase value, decide (value ∈ s))
  | find value, s => (s, decide (value ∈ s))

end IntsetOp

def Intset.runs : List ((ℕ → UInt8) × IntsetOp) → Intset → Option (Intset × List Bool)
  | [], is => some (is, [])
  | (junk, op) :: ops, is => do
    let (is, answer) ← op.run junk is
    let (is, answers) ← Intset.runs ops is
    some (is, answer :: answers)

def applyAll : List IntsetOp → Finset ℤ → Finset ℤ × List Bool
  | [], s => (s, [])
  | op :: ops, s =>
    let rest := applyAll ops (op.apply s).1
    (rest.1, (op.apply s).2 :: rest.2)

section

variable {is : Intset} {s : Finset ℤ}

/- The block stands for the set. -/
def Stands (is : Intset) (s : Finset ℤ) : Prop := ∃ vals, Holds is vals ∧ ∀ v, v ∈ vals ↔ v ∈ s

theorem Stands.card {vals : List ℤ} (hs : Holds is vals) (h : ∀ v, v ∈ vals ↔ v ∈ s) :
    vals.length = s.card := by
  have hnodup : vals.Nodup := hs.sorted.imp fun hlt => hlt.ne
  have heq : vals.toFinset = s := by
    ext v
    rw [List.mem_toFinset, h]
  rw [← heq, List.toFinset_card_of_nodup hnodup]

/-- One operation on the block is the operation on the set. -/
theorem Stands.op (h : Stands is s) (op : IntsetOp) (hv : IsLongLong op.value)
    (hbefore : s.card < 2 ^ 29) (hafter : (op.apply s).1.card < 2 ^ 29) (junk : ℕ → UInt8) :
    ∃ is', op.run junk is = some (is', (op.apply s).2) ∧ Stands is' (op.apply s).1 := by
  obtain ⟨vals, hs, hmem⟩ := h
  have hcard := Stands.card hs hmem
  cases op with
  | add value =>
    have hroom : value ∉ vals → (vals.length + 1) * 8 < 2 ^ 32 := by
      intro hnot
      have hgrown : (insert value s).card = s.card + 1 :=
        Finset.card_insert_of_notMem fun h => hnot ((hmem value).mpr h)
      have hafter : (insert value s).card < 2 ^ 29 := hafter
      omega
    obtain ⟨is', vals', hadd, hs', hmem'⟩ := hs.add (show IsLongLong value from hv) hroom junk
    refine ⟨is', ?_, vals', hs', fun v => ?_⟩
    · simp only [IntsetOp.run, IntsetOp.apply, hadd, hmem]
    · rw [hmem', hmem, IntsetOp.apply, Finset.mem_insert]
  | remove value =>
    obtain ⟨is', vals', hremove, hs', hmem'⟩ :=
      hs.remove (show IsLongLong value from hv) (by omega) junk
    refine ⟨is', ?_, vals', hs', fun v => ?_⟩
    · simp only [IntsetOp.run, IntsetOp.apply, hremove, hmem]
    · rw [hmem', hmem, IntsetOp.apply, Finset.mem_erase]
  | find value =>
    refine ⟨is, ?_, vals, hs, hmem⟩
    simp only [IntsetOp.run, IntsetOp.apply, hs.find (show IsLongLong value from hv),
      Option.map_some, hmem]

theorem Stands.runs (ops : List ((ℕ → UInt8) × IntsetOp)) {is : Intset} {s : Finset ℤ}
    (h : Stands is s) (hv : ∀ op ∈ ops.map Prod.snd, IsLongLong op.value)
    (hsmall : ∀ before, before <+: ops.map Prod.snd → (applyAll before s).1.card < 2 ^ 29) :
    ∃ is', Intset.runs ops is = some (is', (applyAll (ops.map Prod.snd) s).2) ∧
      Stands is' (applyAll (ops.map Prod.snd) s).1 := by
  induction ops generalizing is s with
  | nil => exact ⟨is, rfl, h⟩
  | cons junkop ops ih =>
    obtain ⟨junk, op⟩ := junkop
    have hbefore : s.card < 2 ^ 29 := hsmall [] (List.nil_prefix)
    have hafter : (op.apply s).1.card < 2 ^ 29 := hsmall [op] ⟨ops.map Prod.snd, rfl⟩
    obtain ⟨is₁, hop, h₁⟩ := h.op op (hv op (by simp)) hbefore hafter junk
    obtain ⟨is₂, hrest, h₂⟩ := ih h₁ (fun o ho => hv o (by simp at ho ⊢; exact Or.inr ho))
      fun before hpre => hsmall (op :: before) (List.prefix_cons_inj op |>.mpr hpre)
    refine ⟨is₂, ?_, h₂⟩
    rw [Intset.runs, hop, Option.bind_eq_bind, Option.bind_some]
    dsimp only
    rw [hrest]
    rfl

end

/- The values of a block in the order of their positions. -/
def Lists (is : Intset) (vals : List ℤ) : Prop := ∀ i, is.getAt i = some vals[i]?

theorem Holds.lists {is : Intset} {vals : List ℤ} (hs : Holds is vals) : Lists is vals := by
  intro i
  unfold Intset.getAt
  rw [hs.length]
  by_cases hi : i < vals.length
  · rw [if_pos hi, hs.get hi, List.getElem?_eq_getElem hi]
    rfl
  · rw [if_neg hi, List.getElem?_eq_none (by omega)]

/-- Whatever additions, removals and lookups are made, and whatever fresh memory holds, no
byte outside of the block is read or written, the answers are those of a finite set, and
the block lists that set in ascending order, as long as the set stays below the 2 ^ 29
values whose bytes a `uint32_t` counts. -/
theorem intset_refines_set (ops : List ((ℕ → UInt8) × IntsetOp))
    (hv : ∀ op ∈ ops.map Prod.snd, IsLongLong op.value)
    (hsmall : ∀ before, before <+: ops.map Prod.snd → (applyAll before ∅).1.card < 2 ^ 29) :
    ∃ is vals, Intset.runs ops Intset.new = some (is, (applyAll (ops.map Prod.snd) ∅).2) ∧
      Lists is vals ∧ vals.Pairwise (· < ·) ∧
      ∀ v, v ∈ vals ↔ v ∈ (applyAll (ops.map Prod.snd) ∅).1 := by
  have hnew : Stands Intset.new ∅ := by
    refine ⟨[], ⟨Or.inl rfl, rfl, rfl, ?_, List.Pairwise.nil⟩, ?_⟩
    · exact List.forall_mem_nil _
    · simp
  obtain ⟨is, hruns, vals, hs, hmem⟩ := Stands.runs ops hnew hv hsmall
  exact ⟨is, vals, hruns, hs.lists, hs.sorted, hmem⟩

/- A set that is made wider twice and loses a value in between. -/
def wideningOps : List ((ℕ → UInt8) × IntsetOp) :=
  [.add 5, .add (-70000), .remove 5, .add (2 ^ 40), .find 5].map fun op => (fun _ => 255, op)

theorem widened_set_refines_set :
    ∃ is vals, Intset.runs wideningOps Intset.new = some (is, [true, true, true, true, false]) ∧
      Lists is vals ∧ vals.Pairwise (· < ·) ∧ ∀ v, v ∈ vals ↔ v = -70000 ∨ v = 2 ^ 40 := by
  have hsmall : ∀ before ∈ (wideningOps.map Prod.snd).inits,
      (applyAll before ∅).1.card < 2 ^ 29 := by decide
  obtain ⟨is, vals, hruns, hlists, hsorted, hmem⟩ := intset_refines_set wideningOps (by decide)
    fun before hpre => hsmall before (List.mem_inits before _ |>.mpr hpre)
  refine ⟨is, vals, hruns, hlists, hsorted, fun v => ?_⟩
  have hset : (applyAll (wideningOps.map Prod.snd) ∅).1 = {-70000, 2 ^ 40} := by decide
  rw [hmem v, hset, Finset.mem_insert, Finset.mem_singleton]

end NodeServer.Redis

import NodeServer.Lib.Table
import Mathlib.Data.Nat.Digits.Lemmas
import Mathlib.Tactic.IntervalCases

/-! # Integers as texts (`redis-5.0.2/src/util.c:235-411`, `sds.c:445-515`)

Redis keeps a text that is an integer in binary and makes the text again when a client
asks for it. `string2ll` reads exactly the texts that `ll2string` and `sdsll2str` print,
so that no text comes back changed. The smallest integer is the exception: `sdsll2str`
negates it, which no value of type `long long` stands for. -/

namespace NodeServer.Redis

def LLONG_MAX : ℤ := 2 ^ 63 - 1
def LLONG_MIN : ℤ := -2 ^ 63
def ULLONG_MAX : ℕ := 2 ^ 64 - 1

/- A value of type `long long`. -/
def IsLongLong (v : ℤ) : Prop := LLONG_MIN ≤ v ∧ v ≤ LLONG_MAX

instance (v : ℤ) : Decidable (IsLongLong v) := inferInstanceAs (Decidable (_ ∧ _))

/- The decimal text of an integer. -/
def decimal (v : ℤ) : Str :=
  if v < 0 then '-' :: Nat.toDigits 10 v.natAbs else Nat.toDigits 10 v.natAbs

/-! ### `ll2string` (util.c:278) -/

/-- `digits10` (util.c:235). -/
def digits10 (v : ℕ) : ℕ :=
  if v < 10 then 1
  else if v < 100 then 2
  else if v < 1000 then 3
  else if v < 1000000000000 then
    if v < 100000000 then
      if v < 1000000 then
        if v < 10000 then 4 else 5 + (if v ≥ 100000 then 1 else 0)
      else 7 + (if v ≥ 10000000 then 1 else 0)
    else if v < 10000000000 then 9 + (if v ≥ 1000000000 then 1 else 0)
    else 11 + (if v ≥ 100000000000 then 1 else 0)
  else 12 + digits10 (v / 1000000000000)
termination_by v
decreasing_by omega

/- The digits of the numbers below 100, two for each. -/
def digitTable : Str :=
  "0001020304050607080910111213141516171819".toList ++
  "2021222324252627282930313233343536373839".toList ++
  "4041424344454647484950515253545556575859".toList ++
  "6061626364656667686970717273747576777879".toList ++
  "8081828384858687888990919293949596979899".toList

def digitOf (d : ℕ) : Char := Char.ofNat ('0'.toNat + d)

/- A write outside of the buffer is none. -/
def put (dst : Str) (i : ℕ) (c : Char) : Option Str :=
  if i < dst.length then some (dst.set i c) else none

/- Subtraction of type `uint32_t`. -/
def sub32 (a b : ℕ) : ℕ := (a + 2 ^ 32 - b) % 2 ^ 32

/-- The digits of `value` from the last one on (util.c:310-325). -/
def writeDigits (value next : ℕ) (dst : Str) : Option Str :=
  if value ≥ 100 then do
    let i := value % 100 * 2
    let dst ← put dst next (digitTable.getD (i + 1) '0')
    let dst ← put dst (sub32 next 1) (digitTable.getD i '0')
    writeDigits (value / 100) (sub32 next 2) dst
  else if value < 10 then put dst next (digitOf value)
  else do
    let dst ← put dst next (digitTable.getD (value * 2 + 1) '0')
    put dst (sub32 next 1) (digitTable.getD (value * 2) '0')
termination_by value
decreasing_by omega

/-- `ll2string` with the buffer `dst`: the buffer afterwards, and the length returned. -/
def ll2string (dst : Str) (svalue : ℤ) : Option (Str × ℕ) :=
  let value := if svalue < 0 then
      if svalue ≠ LLONG_MIN then (-svalue).toNat else LLONG_MAX.toNat + 1
    else svalue.toNat
  let negative := if svalue < 0 then 1 else 0
  let length := digits10 value + negative
  if length ≥ dst.length then some (dst, 0)
  else do
    let dst ← put dst length (Char.ofNat 0)
    let dst ← writeDigits value (sub32 length 1) dst
    let dst ← if negative = 1 then put dst 0 '-' else some dst
    some (dst, length)

/-- `addReplyBulkLongLong` (networking.c:597): the text sent to the client. -/
def bulkLongLong (ll : ℤ) : Option Str :=
  (ll2string (List.replicate 64 '\x00') ll).map fun (buf, len) => buf.take len

/-! ### `sdsll2str` (sds.c:446) -/

/- The negation of a `long long` that has one; else it is undefined, and none. -/
def negate (value : ℤ) : Option ℤ := if IsLongLong (-value) then some (-value) else none

/-- The digits of `v` from the last one on, written from `p` on (sds.c:455-458): the buffer
and the place behind them. -/
def writeReversed (v p : ℕ) (s : Str) : Option (Str × ℕ) :=
  (put s p (digitOf (v % 10))).bind fun s =>
    if v / 10 = 0 then some (s, p + 1) else writeReversed (v / 10) (p + 1) s
termination_by v
decreasing_by omega

/-- Swap the ends and go on inside (sds.c:466-473). -/
def reverseLoop (s : Str) (i j : ℕ) : Option Str :=
  if i < j then do
    let aux ← s[i]?
    let last ← s[j]?
    let s ← put s i last
    let s ← put s j aux
    reverseLoop s (i + 1) (j - 1)
  else some s
termination_by j - i

def SDS_LLSTR_SIZE : ℕ := 21

/-- `sdsll2str` with the buffer `s`: the buffer afterwards, and the length returned. -/
def sdsll2str (s : Str) (value : ℤ) : Option (Str × ℕ) := do
  let v ← if value < 0 then negate value else some value
  let (s, p) ← writeReversed v.toNat 0 s
  let (s, p) ← if value < 0 then (put s p '-').map fun s => (s, p + 1) else some (s, p)
  let s ← put s p (Char.ofNat 0)
  let s ← reverseLoop s 0 (p - 1)
  some (s, p)

/-- `sdsfromlonglong` (sds.c:510). -/
def sdsfromlonglong (value : ℤ) : Option Str :=
  (sdsll2str (List.replicate SDS_LLSTR_SIZE '\x00') value).map fun (buf, len) => buf.take len

/-! ### `string2ll` (util.c:344) -/

def digitValue (c : Char) : ℕ := c.toNat - '0'.toNat

/-- The digits after the first one (util.c:379-389). -/
def string2llLoop (v : ℕ) : Str → Option (ℕ × Str)
  | [] => some (v, [])
  | c :: s =>
    if '0' ≤ c ∧ c ≤ '9' then
      if v > ULLONG_MAX / 10 then none
      else if v * 10 > ULLONG_MAX - digitValue c then none
      else string2llLoop (v * 10 + digitValue c) s
    else some (v, c :: s)

/-- The last overflow check (util.c:397-408). -/
def string2llSign (negative : Bool) (v : ℕ) : Option ℤ :=
  if negative then
    if v > (-(LLONG_MIN + 1)).toNat + 1 then none else some (-v)
  else if v > LLONG_MAX.toNat then none else some v

/-- From the first digit on (util.c:371-393). -/
def string2llDigits (negative : Bool) : Str → Option ℤ
  | [] => none
  | c :: s =>
    if '1' ≤ c ∧ c ≤ '9' then
      match string2llLoop (digitValue c) s with
      | some (v, []) => string2llSign negative v
      | _ => none
    else none

def string2ll (s : Str) : Option ℤ :=
  match s with
  | ['0'] => some 0
  | '-' :: s => string2llDigits true s
  | s => string2llDigits false s

/-! ### Digits -/

theorem digitOf_eq {d : ℕ} (hd : d < 10) : digitOf d = Nat.digitChar d := by
  interval_cases d <;> rfl

theorem digitTable_pairs : digitTable =
    (List.range 100).flatMap fun n => [Nat.digitChar (n / 10), Nat.digitChar (n % 10)] := by
  decide +kernel

theorem digitTable_eq {n : ℕ} (hn : n < 100) :
    digitTable.getD (n * 2) '0' = Nat.digitChar (n / 10) ∧
      digitTable.getD (n * 2 + 1) '0' = Nat.digitChar (n % 10) := by
  rw [digitTable_pairs]
  interval_cases n <;> exact ⟨rfl, rfl⟩

theorem digit_range {c : Char} : ('0' ≤ c ∧ c ≤ '9') ↔ 48 ≤ c.toNat ∧ c.toNat ≤ 57 := Iff.rfl

/- A digit is the character of its value. -/
theorem digitChar_digitValue {c : Char} (hc : '0' ≤ c ∧ c ≤ '9') :
    Nat.digitChar (digitValue c) = c ∧ digitValue c < 10 := by
  obtain ⟨hlo, hhi⟩ := digit_range.mp hc
  have hlt : digitValue c < 10 := by
    show c.toNat - 48 < 10
    omega
  refine ⟨?_, hlt⟩
  apply Char.toNat_inj.mp
  rw [Nat.toNat_digitChar_of_lt_ten hlt]
  show 48 + (c.toNat - 48) = c.toNat
  omega

theorem toDigits_digitOf {d : ℕ} (hd : d < 10) : Nat.toDigits 10 d = [digitOf d] := by
  rw [Nat.toDigits_of_lt_base hd, digitOf_eq hd]

/-- The text of a number of two digits or more. -/
theorem toDigits_snoc {v d : ℕ} (hv : 0 < v) (hd : d < 10) :
    Nat.toDigits 10 (v * 10 + d) = Nat.toDigits 10 v ++ [Nat.digitChar d] := by
  rw [← Nat.toDigits_of_lt_base hd, Nat.toDigits_append_toDigits (by decide) hv hd, Nat.mul_comm]

/-! ### The number of digits -/

theorem toDigits_length_eq {v k : ℕ} (hlo : 10 ^ k ≤ v) (hhi : v < 10 ^ (k + 1)) :
    (Nat.toDigits 10 v).length = k + 1 := by
  have hle : (Nat.toDigits 10 v).length ≤ k + 1 :=
    (Nat.length_toDigits_le_iff (by decide) (Nat.succ_pos k)).mpr hhi
  have hpos : 0 < (Nat.toDigits 10 v).length := Nat.length_toDigits_pos
  cases k with
  | zero => omega
  | succ k =>
    have hnot : ¬ (Nat.toDigits 10 v).length ≤ k + 1 := by
      intro h
      have := (Nat.length_toDigits_le_iff (by decide) (Nat.succ_pos k)).mp h
      omega
    omega

theorem toDigits_length_div {v : ℕ} (n : ℕ) (hv : 10 ^ n ≤ v) :
    (Nat.toDigits 10 v).length = (Nat.toDigits 10 (v / 10 ^ n)).length + n := by
  induction n generalizing v with
  | zero => simp
  | succ n ih =>
    have hpow : 10 ^ n * 10 ≤ v := by rw [← pow_succ]; exact hv
    have hone : 1 ≤ 10 ^ n := Nat.one_le_pow _ _ (by decide)
    have hten : 10 ≤ v := by omega
    have hrest : 10 ^ n ≤ v / 10 := (Nat.le_div_iff_mul_le (by decide)).mpr hpow
    rw [Nat.toDigits_of_base_le (by decide) hten, List.length_append, ih hrest,
      Nat.div_div_eq_div_mul, ← pow_succ']
    rfl

theorem digits10_eq (v : ℕ) : digits10 v = (Nat.toDigits 10 v).length := by
  induction v using Nat.strong_induction_on with
  | _ v ih =>
    have hlen : ∀ k, 10 ^ k ≤ v ∧ v < 10 ^ (k + 1) → k + 1 = (Nat.toDigits 10 v).length :=
      fun k h => (toDigits_length_eq h.1 h.2).symm
    rw [digits10]
    split_ifs with h1 h2 h3 h12 h8 h6 h4 h5 h7 h10 h9 h11
    · rw [Nat.toDigits_of_lt_base h1]
      rfl
    · exact hlen 1 (by omega)
    · exact hlen 2 (by omega)
    · exact hlen 3 (by omega)
    · exact hlen 5 (by omega)
    · exact hlen 4 (by omega)
    · exact hlen 7 (by omega)
    · exact hlen 6 (by omega)
    · exact hlen 9 (by omega)
    · exact hlen 8 (by omega)
    · exact hlen 11 (by omega)
    · exact hlen 10 (by omega)
    · rw [ih (v / 1000000000000) (by omega), Nat.add_comm]
      exact (toDigits_length_div 12 (by omega)).symm

/-! ### Printing -/

theorem put_append {before after : Str} {i : ℕ} (hi : i = before.length) (x c : Char) :
    put (before ++ x :: after) i c = some (before ++ c :: after) := by
  subst hi
  simp [put]

theorem sub32_eq {a b : ℕ} (hb : b ≤ a) (ha : a < 2 ^ 32) : sub32 a b = a - b := by
  unfold sub32
  omega

/- Two digits are split off at the end. -/
theorem toDigits_pair {value : ℕ} (h : 100 ≤ value) :
    Nat.toDigits 10 value = Nat.toDigits 10 (value / 100) ++
      [Nat.digitChar (value % 100 / 10), Nat.digitChar (value % 100 % 10)] := by
  have htens : value / 10 % 10 = value % 100 / 10 := by omega
  have hones : value % 10 = value % 100 % 10 := by omega
  rw [Nat.toDigits_of_base_le (by decide) (by omega : 10 ≤ value),
    Nat.toDigits_of_base_le (by decide) (by omega : 10 ≤ value / 10), Nat.div_div_eq_div_mul,
    List.append_assoc, htens, hones]
  rfl

theorem toDigits_two {value : ℕ} (hlo : 10 ≤ value) (hhi : value < 100) :
    Nat.toDigits 10 value = [Nat.digitChar (value / 10), Nat.digitChar (value % 10)] := by
  rw [Nat.toDigits_of_base_le (by decide) hlo, Nat.toDigits_of_lt_base (by omega : value / 10 < 10)]
  rfl

theorem two_last {g : Str} (h : 2 ≤ g.length) : ∃ front x y, g = front ++ [x, y] := by
  obtain rfl | ⟨g', y, rfl⟩ := List.eq_nil_or_concat g
  · cases h
  · obtain rfl | ⟨front, x, rfl⟩ := List.eq_nil_or_concat g'
    · simp at h
    · exact ⟨front, x, y, by simp⟩

/-- The digits end at `next`, and the rest of the buffer stays. -/
theorem writeDigits_eq (value : ℕ) (before gap after : Str) (next : ℕ)
    (hgap : gap.length = (Nat.toDigits 10 value).length)
    (hnext : next + 1 = before.length + gap.length) (hsmall : next < 2 ^ 32) :
    writeDigits value next (before ++ gap ++ after) =
      some (before ++ Nat.toDigits 10 value ++ after) := by
  induction value using Nat.strong_induction_on generalizing gap after next with
  | _ value ih =>
    rw [writeDigits]
    by_cases h100 : value ≥ 100
    · rw [toDigits_pair h100] at hgap ⊢
      obtain ⟨front, x, y, rfl⟩ := two_last (g := gap) (by simp [hgap])
      have hpair := digitTable_eq (n := value % 100) (by omega)
      have hpos : 0 < (Nat.toDigits 10 (value / 100)).length := Nat.length_toDigits_pos
      simp only [List.length_append, List.length_cons, List.length_nil] at hgap hnext
      have hlast : before ++ (front ++ [x, y]) ++ after = (before ++ front ++ [x]) ++ y :: after := by
        simp
      have hfirst : (before ++ front ++ [x]) ++ Nat.digitChar (value % 100 % 10) :: after =
          (before ++ front) ++ x :: Nat.digitChar (value % 100 % 10) :: after := by
        simp
      have hrest := ih (value / 100) (by omega) front
        (Nat.digitChar (value % 100 / 10) :: Nat.digitChar (value % 100 % 10) :: after) (next - 2)
        (by omega) (by omega) (by omega)
      rw [if_pos h100]
      dsimp only
      rw [hpair.1, hpair.2, hlast, put_append (by simp; omega), Option.bind_eq_bind,
        Option.bind_some, hfirst, sub32_eq (by omega) hsmall, put_append (by simp; omega),
        Option.bind_some, sub32_eq (by omega) hsmall, hrest]
      simp
    · rw [if_neg h100]
      by_cases h10 : value < 10
      · rw [if_pos h10]
        rw [toDigits_digitOf h10] at hgap ⊢
        obtain ⟨x, rfl⟩ := List.length_eq_one_iff.mp hgap
        simp only [List.length_cons, List.length_nil] at hnext
        rw [List.append_assoc, List.cons_append, put_append (by omega)]
        simp
      · rw [if_neg h10]
        have hpair := digitTable_eq (n := value) (by omega)
        rw [toDigits_two (by omega) (by omega)] at hgap ⊢
        obtain ⟨x, y, rfl⟩ := List.length_eq_two.mp hgap
        simp only [List.length_cons, List.length_nil] at hnext
        have hlast : before ++ [x, y] ++ after = (before ++ [x]) ++ y :: after := by simp
        have hfirst : (before ++ [x]) ++ Nat.digitChar (value % 10) :: after =
            before ++ x :: Nat.digitChar (value % 10) :: after := by simp
        rw [hpair.1, hpair.2, hlast, put_append (by simp; omega), Option.bind_eq_bind,
          Option.bind_some, hfirst, sub32_eq (by omega) hsmall, put_append (by omega)]
        simp

theorem magnitude_eq {v : ℤ} : (if v < 0 then
      if v ≠ LLONG_MIN then (-v).toNat else LLONG_MAX.toNat + 1
    else v.toNat) = v.natAbs := by
  split_ifs with hneg hmin
  · omega
  · rw [not_not.mp hmin]
    decide
  · omega

theorem decimal_length (v : ℤ) :
    (decimal v).length = digits10 v.natAbs + if v < 0 then 1 else 0 := by
  rw [digits10_eq, decimal]
  split_ifs <;> rfl

theorem decimal_short {v : ℤ} (hv : IsLongLong v) : (decimal v).length ≤ 20 := by
  have habs : v.natAbs < 10 ^ 19 := by
    unfold IsLongLong LLONG_MIN LLONG_MAX at hv
    omega
  have hdigits := (Nat.length_toDigits_le_iff (b := 10) (by decide) (by decide)).mpr habs
  rw [decimal_length, digits10_eq]
  split_ifs <;> omega

/- A buffer: what a text takes, the byte after it, and the rest. -/
theorem buffer_split {dst : Str} {n : ℕ} (h : n < dst.length) :
    ∃ gap x, dst = gap ++ x :: dst.drop (n + 1) ∧ gap.length = n := by
  refine ⟨dst.take n, dst.get ⟨n, h⟩, ?_, by simp; omega⟩
  rw [List.get_eq_getElem, List.getElem_cons_drop, List.take_append_drop]

/-- `ll2string` prints the decimal text and a null byte at the start of its buffer, and
changes nothing when the buffer is too small. -/
theorem ll2string_eq (dst : Str) (v : ℤ) (hv : IsLongLong v) :
    ll2string dst v = some (if (decimal v).length ≥ dst.length then (dst, 0)
      else (decimal v ++ Char.ofNat 0 :: dst.drop ((decimal v).length + 1), (decimal v).length)) := by
  have hshort := decimal_short hv
  have hlen := decimal_length v
  unfold ll2string
  rw [magnitude_eq]
  dsimp only
  rw [← hlen]
  by_cases hfit : (decimal v).length ≥ dst.length
  · rw [if_pos hfit, if_pos hfit]
  · rw [if_neg hfit, if_neg hfit]
    obtain ⟨gap, x, hdst, hgap⟩ := buffer_split (not_le.mp hfit)
    generalize dst.drop ((decimal v).length + 1) = rest at hdst ⊢
    subst hdst
    have hpos : 0 < (Nat.toDigits 10 v.natAbs).length := Nat.length_toDigits_pos
    rw [put_append hgap.symm, Option.bind_eq_bind, Option.bind_some,
      sub32_eq (by rw [hlen, digits10_eq]; omega) (by omega)]
    rw [digits10_eq] at hlen
    by_cases hneg : v < 0
    · simp only [hneg, if_true] at hlen ⊢
      obtain ⟨g, gs, rfl⟩ := List.exists_cons_of_length_pos (by omega : 0 < gap.length)
      have hwrite := writeDigits_eq v.natAbs [g] gs (Char.ofNat 0 :: rest) ((decimal v).length - 1)
        (by simp at hgap; omega) (by simp at hgap ⊢; omega) (by omega)
      rw [show g :: gs ++ Char.ofNat 0 :: rest = [g] ++ gs ++ Char.ofNat 0 :: rest from rfl, hwrite]
      simp [put, decimal, hneg]
    · simp only [hneg, if_false] at hlen ⊢
      have hwrite := writeDigits_eq v.natAbs [] gap (Char.ofNat 0 :: rest) ((decimal v).length - 1)
        (by omega) (by simp; omega) (by omega)
      rw [List.nil_append, List.nil_append] at hwrite
      rw [hwrite]
      simp [decimal, hneg]

theorem bulkLongLong_eq {v : ℤ} (hv : IsLongLong v) : bulkLongLong v = some (decimal v) := by
  have hshort := decimal_short hv
  unfold bulkLongLong
  rw [ll2string_eq _ v hv, if_neg (by rw [List.length_replicate]; omega), Option.map_some]
  simp

/-- The digits stand in reverse order, and the rest of the buffer stays. -/
theorem writeReversed_eq (v : ℕ) (before gap after : Str)
    (hgap : gap.length = (Nat.toDigits 10 v).length) :
    writeReversed v before.length (before ++ gap ++ after) =
      some (before ++ (Nat.toDigits 10 v).reverse ++ after, before.length + gap.length) := by
  induction v using Nat.strong_induction_on generalizing before gap with
  | _ v ih =>
    have hpos : 0 < (Nat.toDigits 10 v).length := Nat.length_toDigits_pos
    obtain ⟨g, gs, rfl⟩ := List.exists_cons_of_length_pos (by omega : 0 < gap.length)
    rw [writeReversed, List.append_assoc, List.cons_append, put_append rfl, Option.bind_some,
      digitOf_eq (Nat.mod_lt v (by decide))]
    by_cases hlt : v < 10
    · rw [Nat.toDigits_of_lt_base hlt] at hgap ⊢
      obtain rfl : gs = [] := List.eq_nil_of_length_eq_zero (by simpa using hgap)
      rw [if_pos (by omega), Nat.mod_eq_of_lt hlt]
      simp
    · have hdigits := Nat.toDigits_of_base_le (b := 10) (by decide) (by omega : 10 ≤ v)
      rw [hdigits] at hgap ⊢
      have hrest := ih (v / 10) (by omega) (before ++ [Nat.digitChar (v % 10)]) gs (by simpa using hgap)
      rw [if_neg (by omega)]
      simp only [List.length_append, List.length_cons, List.length_nil, List.append_assoc,
        List.cons_append, List.nil_append, List.reverse_append, List.reverse_cons,
        List.reverse_nil] at hrest ⊢
      rw [hrest, Nat.zero_add, Nat.add_assoc, Nat.add_comm 1]

/-- What lies between the two positions is reversed. -/
theorem reverseLoop_eq (n : ℕ) (m before after : Str) (hm : m.length = n) :
    reverseLoop (before ++ m ++ after) before.length (before.length + m.length - 1) =
      some (before ++ m.reverse ++ after) := by
  induction n using Nat.strong_induction_on generalizing m before after with
  | _ n ih =>
    rw [reverseLoop]
    cases m with
    | nil => simp
    | cons x m =>
      obtain rfl | ⟨inner, y, rfl⟩ := List.eq_nil_or_concat m
      · simp
      · have hfirst : before ++ x :: inner.concat y ++ after = before ++ x :: (inner ++ y :: after) := by
          simp
        have hlast : before ++ x :: inner.concat y ++ after = (before ++ x :: inner) ++ y :: after := by
          simp
        have hj : before.length + (x :: inner.concat y).length - 1 = (before ++ x :: inner).length := by
          simp
        have hx : (before ++ x :: inner.concat y ++ after)[before.length]? = some x := by
          rw [hfirst]
          simp
        have hy : (before ++ x :: inner.concat y ++ after)[(before ++ x :: inner).length]? = some y := by
          rw [hlast, List.getElem?_append_right (le_refl _), Nat.sub_self]
          rfl
        have hswapped : before ++ y :: (inner ++ y :: after) = (before ++ y :: inner) ++ y :: after := by
          simp
        have hinner := ih inner.length (by simp at hm; omega) inner (before ++ [y]) (x :: after) rfl
        rw [if_pos (by simp), hj, hx, hy]
        simp only [Option.bind_eq_bind, Option.bind_some]
        rw [hfirst, put_append rfl, Option.bind_some, hswapped, put_append (by simp),
          Option.bind_some]
        have hinside : (before ++ x :: inner).length - 1 = (before ++ [y]).length + inner.length - 1 := by
          simp
        have hstart : before.length + 1 = (before ++ [y]).length := by simp
        rw [hinside, hstart, show before ++ y :: inner ++ x :: after =
          before ++ [y] ++ inner ++ x :: after by simp, hinner]
        simp

theorem negate_eq {v : ℤ} (hv : IsLongLong v) (hneg : v < 0) (hmin : v ≠ LLONG_MIN) :
    negate v = some (v.natAbs : ℤ) := by
  unfold IsLongLong LLONG_MIN at hv
  unfold LLONG_MIN at hmin
  rw [negate, if_pos (by unfold IsLongLong LLONG_MIN LLONG_MAX; omega)]
  congr 1
  omega

/-- `sdsll2str` prints the decimal text and a null byte at the start of a buffer that has
room for both. -/
theorem sdsll2str_eq (s : Str) (v : ℤ) (hv : IsLongLong v) (hmin : v ≠ LLONG_MIN)
    (hroom : (decimal v).length < s.length) :
    sdsll2str s v = some (decimal v ++ Char.ofNat 0 :: s.drop ((decimal v).length + 1),
      (decimal v).length) := by
  obtain ⟨gap, x, hs, hgap⟩ := buffer_split hroom
  generalize s.drop ((decimal v).length + 1) = rest at hs ⊢
  subst hs
  have hreverse : ∀ m after : Str,
      reverseLoop (m ++ after) 0 (m.length - 1) = some (m.reverse ++ after) := by
    intro m after
    have hloop := reverseLoop_eq m.length m [] after rfl
    simpa using hloop
  by_cases hneg : v < 0
  · -- the sign is written behind the digits
    have htext : decimal v = '-' :: Nat.toDigits 10 v.natAbs := if_pos hneg
    rw [htext, List.length_cons] at hgap
    obtain rfl | ⟨gs, g, rfl⟩ := List.eq_nil_or_concat gap
    · cases hgap
    rw [List.concat_eq_append, List.length_append, List.length_singleton,
      Nat.add_right_cancel_iff] at hgap
    have hwrite := writeReversed_eq v.natAbs [] gs (g :: x :: rest) hgap
    have hbuf : gs.concat g ++ x :: rest = [] ++ gs ++ g :: x :: rest := by simp
    have hsign : (Nat.toDigits 10 v.natAbs).reverse ++ '-' :: x :: rest =
        ((Nat.toDigits 10 v.natAbs).reverse ++ ['-']) ++ x :: rest := by simp
    have hdone := hreverse ((Nat.toDigits 10 v.natAbs).reverse ++ ['-']) (Char.ofNat 0 :: rest)
    simp only [List.length_nil, Nat.zero_add, List.nil_append] at hwrite
    simp only [List.length_append, List.length_reverse, List.length_singleton] at hdone
    simp only [sdsll2str, if_pos hneg, negate_eq hv hneg hmin, Option.bind_eq_bind,
      Option.bind_some, Int.toNat_natCast, hbuf, List.nil_append, hwrite]
    rw [put_append (by simp [hgap]), Option.map_some, Option.bind_some, hsign,
      put_append (by simp [hgap]), Option.bind_some, hgap, hdone]
    simp [htext]
  · have htext : decimal v = Nat.toDigits 10 v.natAbs := if_neg hneg
    have hvalue : v.toNat = v.natAbs := by omega
    rw [htext] at hgap ⊢
    have hwrite := writeReversed_eq v.natAbs [] gap (x :: rest) hgap
    have hdone := hreverse (Nat.toDigits 10 v.natAbs).reverse (Char.ofNat 0 :: rest)
    simp only [List.length_nil, Nat.zero_add, List.nil_append] at hwrite
    rw [List.length_reverse, List.reverse_reverse] at hdone
    simp only [sdsll2str, if_neg hneg, Option.bind_eq_bind, Option.bind_some, hvalue, hwrite]
    rw [put_append (by simp [hgap]), Option.bind_some, hgap, hdone]
    simp

theorem sdsfromlonglong_eq {v : ℤ} (hv : IsLongLong v) (hmin : v ≠ LLONG_MIN) :
    sdsfromlonglong v = some (decimal v) := by
  have hshort := decimal_short hv
  unfold sdsfromlonglong
  rw [sdsll2str_eq _ v hv hmin (by rw [List.length_replicate, SDS_LLSTR_SIZE]; omega),
    Option.map_some]
  simp

/-! ### Reading -/

/- The digits read are appended to the text of `v`. -/
theorem string2llLoop_eq {v n : ℕ} (hv : 0 < v) (s rest : Str)
    (h : string2llLoop v s = some (n, rest)) :
    (Nat.toDigits 10 v ++ s = Nat.toDigits 10 n ++ rest) ∧ 0 < n := by
  induction s generalizing v with
  | nil =>
    cases h
    exact ⟨rfl, hv⟩
  | cons c s ih =>
    rw [string2llLoop] at h
    split_ifs at h with hc
    · obtain ⟨hchar, hlt⟩ := digitChar_digitValue hc
      obtain ⟨heq, hn⟩ := ih (by omega) h
      refine ⟨?_, hn⟩
      rw [← heq, toDigits_snoc hv hlt, hchar, List.append_assoc]
      rfl
    · cases h
      exact ⟨rfl, hv⟩

theorem toDigits_prefix_le {v n : ℕ} {s : Str} (h : Nat.toDigits 10 n = Nat.toDigits 10 v ++ s) :
    v ≤ n := by
  have hgrow : ∀ (s : Str) (v : ℕ), v ≤ Nat.ofDigitChars 10 s v := by
    intro s
    induction s with
    | nil => exact fun v => le_refl v
    | cons c s ih =>
      intro v
      have hrest := ih (10 * v + (c.toNat - '0'.toNat))
      exact le_trans (by omega) hrest
  have hvalue := congrArg (fun l => Nat.ofDigitChars 10 l 0) h
  simp only [Nat.ofDigitChars_append, Nat.ofDigitChars_ten_toDigits] at hvalue
  rw [hvalue]
  exact hgrow s v

/-- A number that fits is read to its end. -/
theorem string2llLoop_toDigits {v n : ℕ} (hv : 0 < v) (s : Str)
    (h : Nat.toDigits 10 n = Nat.toDigits 10 v ++ s) (hn : n ≤ ULLONG_MAX) :
    string2llLoop v s = some (n, []) := by
  induction s generalizing v with
  | nil =>
    rw [List.append_nil] at h
    have hvalue := congrArg (fun l => Nat.ofDigitChars 10 l 0) h
    simp only [Nat.ofDigitChars_ten_toDigits] at hvalue
    rw [hvalue]
    rfl
  | cons c s ih =>
    have hmem : c ∈ Nat.toDigits 10 n := by simp [h]
    have hdigit := Nat.isDigit_of_mem_toDigits (b := 10) (by decide) (by decide) hmem
    have hc : '0' ≤ c ∧ c ≤ '9' := by
      simp only [Char.isDigit, Bool.and_eq_true, decide_eq_true_eq] at hdigit
      exact hdigit
    obtain ⟨hchar, hlt⟩ := digitChar_digitValue hc
    have hnext : Nat.toDigits 10 n = Nat.toDigits 10 (v * 10 + digitValue c) ++ s := by
      rw [toDigits_snoc hv hlt, hchar, h, List.append_assoc]
      rfl
    have hle := toDigits_prefix_le hnext
    rw [string2llLoop, if_pos hc, if_neg (by unfold ULLONG_MAX at hn ⊢; omega), if_neg (by omega)]
    exact ih (by omega) hnext

theorem toDigits_cons {n : ℕ} (hn : 0 < n) :
    ∃ c s, Nat.toDigits 10 n = c :: s ∧ '1' ≤ c ∧ c ≤ '9' := by
  induction n using Nat.strong_induction_on with
  | _ n ih =>
    by_cases hlt : n < 10
    · refine ⟨Nat.digitChar n, [], Nat.toDigits_of_lt_base hlt, ?_⟩
      interval_cases n <;> decide
    · obtain ⟨c, s, heq, hc⟩ := ih (n / 10) (by omega) (by omega)
      refine ⟨c, s ++ [Nat.digitChar (n % 10)], ?_, hc⟩
      rw [Nat.toDigits_of_base_le (by decide) (by omega), heq]
      rfl

theorem digit_of_first {c : Char} (hc : '1' ≤ c ∧ c ≤ '9') : '0' ≤ c ∧ c ≤ '9' := by
  have hone : 49 ≤ c.toNat := hc.1
  exact ⟨digit_range.mpr ⟨by omega, hc.2⟩ |>.1, hc.2⟩

theorem first_pos {c : Char} (hc : '1' ≤ c ∧ c ≤ '9') : 0 < digitValue c := by
  have hone : 49 ≤ c.toNat := hc.1
  show 0 < c.toNat - 48
  omega

theorem string2llSign_iff (negative : Bool) (n : ℕ) (z : ℤ) :
    string2llSign negative n = some z ↔
      z = (if negative then -(n : ℤ) else n) ∧ IsLongLong z := by
  unfold string2llSign IsLongLong LLONG_MIN LLONG_MAX
  split_ifs with hneg hbig hbig
  · simp only [false_iff]
    omega
  · simp only [Option.some.injEq]
    omega
  · simp only [false_iff]
    omega
  · simp only [Option.some.injEq]
    omega

/-- What is read from the first digit on. -/
theorem string2llDigits_iff (negative : Bool) (s : Str) (z : ℤ) :
    string2llDigits negative s = some z ↔ ∃ n : ℕ, 0 < n ∧ s = Nat.toDigits 10 n ∧
      z = (if negative then -(n : ℤ) else n) ∧ IsLongLong z := by
  constructor
  · intro h
    cases s with
    | nil => cases h
    | cons c s =>
      rw [string2llDigits] at h
      split_ifs at h with hc
      have hdigit : '0' ≤ c ∧ c ≤ '9' := digit_of_first hc
      obtain ⟨hchar, hlt⟩ := digitChar_digitValue hdigit
      have hpos := first_pos hc
      split at h
      · next n hloop =>
        obtain ⟨heq, hn⟩ := string2llLoop_eq hpos s [] hloop
        rw [Nat.toDigits_of_lt_base hlt, hchar, List.append_nil] at heq
        exact ⟨n, hn, heq, (string2llSign_iff negative n z).mp h⟩
      · cases h
  · rintro ⟨n, hn, rfl, hz⟩
    obtain ⟨c, s, heq, hc⟩ := toDigits_cons hn
    have hdigit : '0' ≤ c ∧ c ≤ '9' := digit_of_first hc
    obtain ⟨hchar, hlt⟩ := digitChar_digitValue hdigit
    have hpos := first_pos hc
    have hsmall : n ≤ ULLONG_MAX := by
      obtain ⟨rfl, hrange⟩ := hz
      unfold IsLongLong LLONG_MIN LLONG_MAX at hrange
      unfold ULLONG_MAX
      cases negative <;> simp at hrange <;> omega
    have hloop : string2llLoop (digitValue c) s = some (n, []) := by
      refine string2llLoop_toDigits hpos s ?_ hsmall
      rw [Nat.toDigits_of_lt_base hlt, hchar, heq]
      rfl
    rw [heq, string2llDigits, if_pos hc, hloop]
    exact (string2llSign_iff negative n z).mpr hz

/-- `string2ll` reads exactly the decimal texts of the values of type `long long`. -/
theorem string2ll_iff (s : Str) (v : ℤ) : string2ll s = some v ↔ IsLongLong v ∧ s = decimal v := by
  constructor
  · intro h
    unfold string2ll at h
    split at h
    · cases h
      exact ⟨by decide, by decide⟩
    · next s =>
      obtain ⟨n, hn, rfl, hv, hrange⟩ := (string2llDigits_iff true s v).mp h
      have hneg : v < 0 := by simp at hv; omega
      have habs : v.natAbs = n := by simp at hv; omega
      rw [decimal, if_pos hneg, habs]
      exact ⟨hrange, rfl⟩
    · obtain ⟨n, hn, rfl, hv, hrange⟩ := (string2llDigits_iff false _ v).mp h
      have hneg : ¬ v < 0 := by simp at hv; omega
      have habs : v.natAbs = n := by simp at hv; omega
      rw [decimal, if_neg hneg, habs]
      exact ⟨hrange, rfl⟩
  · rintro ⟨hrange, rfl⟩
    rcases lt_trichotomy v 0 with hneg | rfl | hpos
    · rw [decimal, if_pos hneg]
      refine (string2llDigits_iff true _ v).mpr ⟨v.natAbs, by omega, rfl, ?_, hrange⟩
      rw [if_pos rfl]
      omega
    · decide
    · have hread := (string2llDigits_iff false _ v).mpr
        ⟨v.natAbs, by omega, rfl, by rw [if_neg (by decide)]; omega, hrange⟩
      obtain ⟨c, s, heq, hc⟩ := toDigits_cons (by omega : 0 < v.natAbs)
      rw [decimal, if_neg (by omega)]
      rw [heq] at hread ⊢
      unfold string2ll
      split
      · next h =>
        rw [(List.cons.inj h).1] at hc
        exact absurd hc (by decide)
      · next h =>
        rw [(List.cons.inj h).1] at hc
        exact absurd hc (by decide)
      · exact hread

theorem decimal_inj {v w : ℤ} (hv : IsLongLong v) (hw : IsLongLong w) (h : decimal v = decimal w) :
    v = w := by
  have hread := (string2ll_iff (decimal v) v).mpr ⟨hv, rfl⟩
  rw [(string2ll_iff (decimal v) w).mpr ⟨hw, h⟩] at hread
  exact (Option.some.inj hread).symm

/-! ### Round trips -/

/- What the two printers make of a value: its decimal text and a null byte at the start of
a buffer, with the length of the text returned. `ll2string` leaves a buffer alone that is
too small; `sdsll2str` is given one of `SDS_LLSTR_SIZE` bytes, and cannot negate the
smallest value. -/
structure Prints (v : ℤ) (s : Str) : Prop where
  text : s = decimal v
  ll2string : ∀ dst : Str, ll2string dst v = some (if s.length ≥ dst.length then (dst, 0)
    else (s ++ Char.ofNat 0 :: dst.drop (s.length + 1), s.length))
  sdsll2str : v ≠ LLONG_MIN → ∀ buf : Str, SDS_LLSTR_SIZE ≤ buf.length →
    sdsll2str buf v = some (s ++ Char.ofNat 0 :: buf.drop (s.length + 1), s.length)

theorem Prints.decimal {v : ℤ} (hv : IsLongLong v) : Prints v (decimal v) := by
  refine ⟨rfl, fun dst => ll2string_eq dst v hv, fun hmin buf hbuf => ?_⟩
  have hshort := decimal_short hv
  rw [SDS_LLSTR_SIZE] at hbuf
  exact sdsll2str_eq buf v hv hmin (by omega)

/-- A text is read as an integer when it is what the printers make of that integer, so
that it comes back as it was, and every integer that is printed is read again. -/
theorem integer_texts_kept :
    (∀ s v, string2ll s = some v ↔ IsLongLong v ∧ Prints v s) ∧
      ∀ v, IsLongLong v → ∃ s, Prints v s ∧ string2ll s = some v := by
  refine ⟨fun s v => ?_, fun v hv => ?_⟩
  · rw [string2ll_iff]
    constructor
    · rintro ⟨hv, rfl⟩
      exact ⟨hv, .decimal hv⟩
    · rintro ⟨hv, hprints⟩
      exact ⟨hv, hprints.text⟩
  · exact ⟨decimal v, .decimal hv, (string2ll_iff _ v).mpr ⟨hv, rfl⟩⟩

/- The smallest value that both printers can print: its text fills the buffer of
`sdsll2str`. -/
theorem smallest_integer_kept :
    ∃ s, Prints (-9223372036854775807) s ∧ string2ll s = some (-9223372036854775807) :=
  integer_texts_kept.2 (-9223372036854775807) (by decide)

end NodeServer.Redis

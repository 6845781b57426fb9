import Mathlib.Algebra.Order.Ring.Int
import Mathlib.Algebra.Order.Group.Nat
import Mathlib.Tactic.Ring
import Mathlib.Tactic.Positivity.Basic

/-! # Byte buffers

A block of memory as the list of its bytes. Reads and writes outside of the block are
`none`, so that a computation that returns has stayed inside. Integers are stored in
little-endian two's complement. -/

namespace NodeServer.Bytes

abbrev Buf := List UInt8

/-! ### Integers -/

/-- The `w` bytes of an integer; higher bits are dropped. -/
def ofInt : ℕ → ℤ → Buf
  | 0, _ => []
  | w + 1, v => UInt8.ofNat (v % 256).toNat :: ofInt w (v / 256)

/-- The unsigned value. -/
def toNat : Buf → ℕ
  | [] => 0
  | b :: bs => b.toNat + 256 * toNat bs

/-- The signed value. -/
def toInt (bs : Buf) : ℤ :=
  if 2 * toNat bs < 256 ^ bs.length then toNat bs else toNat bs - 256 ^ bs.length

/- The integers that `w` bytes can hold. -/
def Fits (w : ℕ) (v : ℤ) : Prop := -256 ^ w ≤ 2 * v ∧ 2 * v < 256 ^ w

theorem Fits.mono {w w' : ℕ} {value : ℤ} (h : Fits w value) (hw : w ≤ w') : Fits w' value := by
  have hpow : (256 : ℤ) ^ w ≤ 256 ^ w' := pow_le_pow_right₀ (by decide) hw
  obtain ⟨hlo, hhi⟩ := h
  exact ⟨by omega, by omega⟩

@[simp] theorem ofInt_length (w : ℕ) (v : ℤ) : (ofInt w v).length = w := by
  induction w generalizing v with
  | zero => rfl
  | succ w ih => simp [ofInt, ih]

/- The lowest byte and the others. -/
theorem emod_bytes (w : ℕ) (v : ℤ) :
    v % 256 ^ (w + 1) = v % 256 + 256 * (v / 256 % 256 ^ w) := by
  have hlo := Int.emod_nonneg v (by decide : (256 : ℤ) ≠ 0)
  have hhi := Int.emod_lt_of_pos v (by decide : (0 : ℤ) < 256)
  have hpos : (0 : ℤ) < 256 ^ w := by positivity
  have hlo' := Int.emod_nonneg (v / 256) hpos.ne'
  have hhi' := Int.emod_lt_of_pos (v / 256) hpos
  have hv : v = v % 256 + 256 * (v / 256 % 256 ^ w) + 256 ^ (w + 1) * (v / 256 / 256 ^ w) := by
    have h1 := Int.emod_add_mul_ediv v 256
    have h2 := Int.emod_add_mul_ediv (v / 256) (256 ^ w)
    rw [pow_succ', Int.mul_assoc]
    omega
  rw [pow_succ'] at hv ⊢
  conv_lhs => rw [hv]
  rw [Int.add_mul_emod_self_left]
  apply Int.emod_eq_of_lt
  · omega
  · omega

theorem toNat_ofInt (w : ℕ) (v : ℤ) : (toNat (ofInt w v) : ℤ) = v % 256 ^ w := by
  induction w generalizing v with
  | zero => simp [ofInt, toNat]
  | succ w ih =>
    have hlo := Int.emod_nonneg v (by decide : (256 : ℤ) ≠ 0)
    have hhi := Int.emod_lt_of_pos v (by decide : (0 : ℤ) < 256)
    have hbyte : (UInt8.ofNat (v % 256).toNat).toNat = (v % 256).toNat := by
      simp
      omega
    simp only [ofInt, toNat, hbyte, Nat.cast_add, Nat.cast_mul, ih, emod_bytes w v]
    omega

theorem toInt_ofInt {w : ℕ} {v : ℤ} (h : Fits w v) : toInt (ofInt w v) = v := by
  obtain ⟨hlo, hhi⟩ := h
  have hvalue := toNat_ofInt w v
  have hpos : (0 : ℤ) < 256 ^ w := by positivity
  have hcast : ((256 ^ w : ℕ) : ℤ) = 256 ^ w := by push_cast; rfl
  unfold toInt
  rw [ofInt_length]
  by_cases hneg : v < 0
  · have hmod : v % 256 ^ w = v + 256 ^ w := by
      rw [← Int.add_emod_right]
      exact Int.emod_eq_of_lt (by omega) (by omega)
    rw [hmod] at hvalue
    rw [if_neg (by omega), hvalue]
    omega
  · have hmod : v % 256 ^ w = v := Int.emod_eq_of_lt (by omega) (by omega)
    rw [hmod] at hvalue
    rw [if_pos (by omega), hvalue]

/-! ### Reads and writes -/

def load (b : Buf) (off n : ℕ) : Option Buf :=
  if off + n ≤ b.length then some ((b.drop off).take n) else none

def store (b : Buf) (off : ℕ) (bs : Buf) : Option Buf :=
  if off + bs.length ≤ b.length then some (b.take off ++ bs ++ b.drop (off + bs.length)) else none

/-- `memmove`: the blocks may overlap. -/
def move (b : Buf) (dst src n : ℕ) : Option Buf := (load b src n).bind (store b dst)

/-- `realloc`: the new bytes are those of `junk`. -/
def resize (b : Buf) (n : ℕ) (junk : ℕ → UInt8) : Buf :=
  b.take n ++ (List.range (n - b.length)).map junk

section

variable {pre mid post : Buf} {off n : ℕ}

theorem load_append (hoff : off = pre.length) (hn : n = mid.length) :
    load (pre ++ mid ++ post) off n = some mid := by
  subst hoff hn
  simp [load]

theorem store_append {bs : Buf} (hoff : off = pre.length) (hn : bs.length = mid.length) :
    store (pre ++ mid ++ post) off bs = some (pre ++ bs ++ post) := by
  subst hoff
  simp [store, hn]

/-- A block is moved towards the end, over what follows it. Its first bytes can be so few that
they stay where they are as well. -/
theorem move_apart {first tail : Buf} {dst : ℕ} (hoff : off = pre.length)
    (hn : n = first.length + mid.length) (hdst : dst = pre.length + post.length)
    (hfirst : first.length ≤ post.length) :
    ∃ slot, move (pre ++ first ++ mid ++ post ++ tail) dst off n =
        some (pre ++ first ++ slot ++ (first ++ mid) ++ tail) ∧
      first.length + slot.length = post.length := by
  have hlength : ((mid ++ post).take (post.length - first.length)).length =
      post.length - first.length := by
    rw [List.length_take, List.length_append]
    omega
  refine ⟨(mid ++ post).take (post.length - first.length), ?_, by omega⟩
  have hload : load (pre ++ first ++ mid ++ post ++ tail) off n = some (first ++ mid) := by
    have hsplit : pre ++ first ++ mid ++ post ++ tail = pre ++ (first ++ mid) ++ (post ++ tail) := by
      simp only [List.append_assoc]
    rw [hsplit]
    exact load_append hoff (by rw [hn, List.length_append])
  have hsplit : pre ++ first ++ mid ++ post ++ tail =
      (pre ++ first ++ (mid ++ post).take (post.length - first.length)) ++
        (mid ++ post).drop (post.length - first.length) ++ tail := by
    rw [List.append_assoc (pre ++ first) ((mid ++ post).take _), List.take_append_drop,
      List.append_assoc (pre ++ first) mid]
  rw [move, hload, Option.bind_some, hsplit]
  apply store_append
  · simp only [List.length_append, hlength]
    omega
  · simp only [List.length_append, List.length_drop]
    omega

theorem move_right {tail : Buf} {dst : ℕ} (hoff : off = pre.length) (hn : n = mid.length)
    (hdst : dst = pre.length + post.length) :
    ∃ slot, move (pre ++ mid ++ post ++ tail) dst off n = some (pre ++ slot ++ mid ++ tail) ∧
      slot.length = post.length := by
  obtain ⟨slot, hmove, hslot⟩ :=
    @move_apart pre mid post off n [] tail dst hoff (by rw [hn]; simp) hdst (Nat.zero_le _)
  simp only [List.append_nil, List.nil_append, List.length_nil, Nat.zero_add] at hmove hslot
  exact ⟨slot, hmove, hslot⟩

/-- A block is moved towards the start, over what precedes it. -/
theorem move_left {gone tail : Buf} {dst : ℕ} (hdst : dst = pre.length)
    (hoff : off = pre.length + gone.length) (hn : n = mid.length) :
    ∃ rest, move (pre ++ gone ++ mid ++ tail) dst off n = some (pre ++ mid ++ rest ++ tail) ∧
      rest.length = gone.length := by
  have hload : load (pre ++ gone ++ mid ++ tail) off n = some mid :=
    load_append (by simp [hoff]) hn
  have hsplit : pre ++ gone ++ mid ++ tail =
      pre ++ (gone ++ mid).take mid.length ++ ((gone ++ mid).drop mid.length ++ tail) := by
    rw [← List.append_assoc _ (List.drop _ _) tail, List.append_assoc pre _ (List.drop _ _),
      List.take_append_drop, List.append_assoc pre gone mid]
  refine ⟨(gone ++ mid).drop mid.length, ?_, by simp⟩
  rw [move, hload, Option.bind_some, hsplit, store_append hdst (by simp), List.append_assoc _ _ tail]

theorem resize_grow {b : Buf} {n : ℕ} (junk : ℕ → UInt8) (h : b.length ≤ n) :
    ∃ fresh, resize b n junk = b ++ fresh ∧ fresh.length = n - b.length := by
  refine ⟨_, by rw [resize, List.take_of_length_le h], by simp⟩

theorem resize_shrink (junk : ℕ → UInt8) (h : n = pre.length) :
    resize (pre ++ post) n junk = pre := by
  subst h
  simp [resize]

end

end NodeServer.Bytes

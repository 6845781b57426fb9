import Mathlib.Data.List.Flatten
import Mathlib.Data.List.Nodup

/-! # Tables of chains

A table of buckets, each with a chain of entries, and a slot for every key. When each
entry stands in the slot of its key, looking a key up in its own chain is looking it up
in the whole table. -/

namespace NodeServer.Buckets

open scoped List

variable {K V : Type}

def Placed (slot : K → ℕ) (table : List (List (K × V))) : Prop :=
  ∀ i chain, table[i]? = some chain → ∀ e ∈ chain, slot e.1 = i

section

variable {slot : K → ℕ} {table : List (List (K × V))} {i : ℕ} {chain : List (K × V)}

/- What a chain gains or loses, the table gains or loses. -/
theorem flatten_set (h : table[i]? = some chain) (chain' : List (K × V)) :
    chain ++ (table.set i chain').flatten ~ chain' ++ table.flatten := by
  induction table generalizing i with
  | nil => simp at h
  | cons c table ih =>
    cases i with
    | zero =>
      simp only [List.getElem?_cons_zero, Option.some.injEq] at h
      subst h
      simp only [List.set_cons_zero, List.flatten_cons, ← List.append_assoc]
      exact List.Perm.append_right _ List.perm_append_comm
    | succ i =>
      rw [List.getElem?_cons_succ] at h
      simp only [List.set_cons_succ, List.flatten_cons]
      calc chain ++ (c ++ (table.set i chain').flatten)
          _ = (chain ++ c) ++ (table.set i chain').flatten := by rw [List.append_assoc]
          _ ~ (c ++ chain) ++ (table.set i chain').flatten :=
            List.Perm.append_right _ List.perm_append_comm
          _ ~ c ++ (chain' ++ table.flatten) := by
            rw [List.append_assoc]
            exact List.Perm.append_left c (ih h)
          _ ~ chain' ++ (c ++ table.flatten) := by
            simp only [← List.append_assoc]
            exact List.Perm.append_right _ List.perm_append_comm

theorem placed_replicate (n : ℕ) : Placed slot (List.replicate n ([] : List (K × V))) := by
  intro i chain hchain e he
  rw [List.getElem?_replicate] at hchain
  split at hchain
  · cases hchain
    cases he
  · cases hchain

theorem Placed.set (h : Placed slot table) (hslot : ∀ e ∈ chain, slot e.1 = i) :
    Placed slot (table.set i chain) := by
  intro j c hc e he
  rw [List.getElem?_set] at hc
  split at hc
  · rename_i hij
    split at hc
    · cases hc
      exact (hslot e he).trans hij
    · cases hc
  · exact h j c hc e he

/-- A key is in the table when it is in its own chain. -/
theorem Placed.mem (h : Placed slot table) {k : K} (hchain : table[slot k]? = some chain) (v : V) :
    (k, v) ∈ table.flatten ↔ (k, v) ∈ chain := by
  constructor
  · intro hmem
    obtain ⟨c, hc, hk⟩ := List.mem_flatten.mp hmem
    obtain ⟨i, hi⟩ := List.mem_iff_getElem?.mp hc
    rw [h i c hi _ hk, hi] at hchain
    cases hchain
    exact hk
  · intro hmem
    exact List.mem_flatten.mpr ⟨chain, List.mem_of_getElem? hchain, hmem⟩

/- The first buckets are empty. -/
def Passed (table : List (List (K × V))) (n : ℕ) : Prop :=
  ∀ i < n, ∀ chain, table[i]? = some chain → chain = []

/-- Past empty buckets only, there is a bucket to come as long as there is an entry. -/
theorem Passed.lt_length {n : ℕ} (h : Passed table n) (hne : table.flatten ≠ []) :
    n < table.length := by
  by_contra hlen
  apply hne
  rw [List.flatten_eq_nil_iff]
  intro c hc
  obtain ⟨i, hi⟩ := List.mem_iff_getElem?.mp hc
  have hlt := (List.getElem?_eq_some_iff.mp hi).1
  exact h i (by omega) c hi

theorem Passed.succ {n : ℕ} (h : Passed table n) (hn : table[n]? = some []) :
    Passed table (n + 1) := by
  intro i hi c hc
  rcases Nat.lt_succ_iff_lt_or_eq.mp hi with hi | rfl
  · exact h i hi c hc
  · rw [hn] at hc
    cases hc
    rfl

/-- Emptying the bucket, one is past it. -/
theorem Passed.set {n : ℕ} (h : Passed table n) : Passed (table.set n []) (n + 1) := by
  intro i hi c hc
  rw [List.getElem?_set] at hc
  split at hc
  · split at hc
    · cases hc
      rfl
    · cases hc
  · rename_i hne
    exact h i (by omega) c hc

/-- An empty bucket that stays empty. -/
theorem Passed.of_set {n : ℕ} (h : Passed table n) (hchain : table[i]? = some chain)
    {chain' : List (K × V)} (hnil : chain = [] → chain' = []) : Passed (table.set i chain') n := by
  intro j hj c hc
  rw [List.getElem?_set] at hc
  split at hc
  · rename_i hij
    split at hc
    · cases hc
      exact hnil (h i (hij ▸ hj) chain hchain)
    · cases hc
  · exact h j hj c hc

end

end NodeServer.Buckets

import NodeServer.Redis.Dict
import Mathlib.Data.List.Perm.Basic

/-! # The entries of a hash table

Every entry is in the bucket of its key, in one of the two tables, and no key is there
twice. All functions of `dict.c` keep that, whatever they move. -/

namespace NodeServer.Redis

open Buckets

/-! ### One table -/

variable {K V : Type} {hash : K → ℕ} {ht : Dictht K V} {es : List (K × V)}

namespace Dictht

open scoped List

theorem index_lt (hsize : 0 < ht.size) (h : ℕ) : ht.index h < ht.size := by
  have hle : h &&& (ht.size - 1) ≤ ht.size - 1 := Nat.and_le_right
  unfold index sizemask
  omega

theorem chain_at (hsize : 0 < ht.size) (h : ℕ) : ∃ chain, ht.table[ht.index h]? = some chain :=
  ⟨_, List.getElem?_eq_getElem (index_lt hsize h)⟩

theorem index_set (i : ℕ) (chain : List (K × V)) (used h : ℕ) :
    (⟨ht.table.set i chain, used⟩ : Dictht K V).index h = ht.index h := by
  simp only [index, sizemask, size, List.length_set]

/- The table holds these entries, each in its bucket. -/
structure Sound (hash : K → ℕ) (ht : Dictht K V) (es : List (K × V)) : Prop where
  placed : Placed (fun k => ht.index (hash k)) ht.table
  entries : ht.table.flatten ~ es
  used : ht.used = es.length

theorem Sound.perm (h : ht.Sound hash es) {es' : List (K × V)} (hperm : es ~ es') :
    ht.Sound hash es' :=
  ⟨h.placed, h.entries.trans hperm, h.used.trans hperm.length_eq⟩

theorem sound_fresh (n : ℕ) : (⟨List.replicate n [], 0⟩ : Dictht K V).Sound hash [] :=
  ⟨placed_replicate n, by simp, rfl⟩

/-- One chain is replaced. -/
theorem Sound.set (h : ht.Sound hash es) {i : ℕ} {chain chain' es' : List (K × V)}
    (hchain : ht.table[i]? = some chain) (hslot : ∀ e ∈ chain', ht.index (hash e.1) = i)
    (hes : chain' ++ es ~ chain ++ es') {used : ℕ} (hused : used = es'.length) :
    (⟨ht.table.set i chain', used⟩ : Dictht K V).Sound hash es' := by
  refine ⟨?_, ?_, hused⟩
  · simp only [index_set]
    exact h.placed.set hslot
  · have hset := flatten_set hchain chain'
    have hall : chain ++ (ht.table.set i chain').flatten ~ chain ++ es' :=
      (hset.trans (List.Perm.append_left chain' h.entries)).trans hes
    exact (List.perm_append_left_iff chain).mp hall

theorem Sound.slot (h : ht.Sound hash es) {i : ℕ} {chain : List (K × V)}
    (hchain : ht.table[i]? = some chain) : ∀ e ∈ chain, ht.index (hash e.1) = i :=
  h.placed i chain hchain

theorem Sound.push (h : ht.Sound hash es) (hsize : 0 < ht.size) (entry : K × V) :
    ∃ ht', ht.push (hash entry.1) entry = some ht' ∧ ht'.Sound hash (entry :: es) ∧
      ht'.size = ht.size := by
  obtain ⟨chain, hchain⟩ := chain_at hsize (hash entry.1)
  refine ⟨⟨ht.table.set (ht.index (hash entry.1)) (entry :: chain), ht.used + 1⟩, ?_, ?_, ?_⟩
  · rw [Dictht.push, hchain, Option.map_some]
  · refine h.set hchain ?_ ?_ ?_
    · intro e he
      rcases List.mem_cons.mp he with rfl | he
      · rfl
      · exact h.slot hchain e he
    · exact List.perm_middle.symm
    · rw [h.used, List.length_cons]
  · simp only [size, List.length_set]

/-- A whole chain is taken out. -/
theorem Sound.take (h : ht.Sound hash es) {i : ℕ} {chain : List (K × V)}
    (hchain : ht.table[i]? = some chain) :
    ∃ rest, es ~ chain ++ rest ∧
      (⟨ht.table.set i [], ht.used - chain.length⟩ : Dictht K V).Sound hash rest := by
  have hset := flatten_set hchain []
  rw [List.nil_append] at hset
  have hes : es ~ chain ++ (ht.table.set i []).flatten := h.entries.symm.trans hset.symm
  refine ⟨(ht.table.set i []).flatten, hes, h.set hchain ?_ ?_ ?_⟩
  · simp
  · simpa using hes
  · rw [h.used, hes.length_eq, List.length_append, Nat.add_sub_cancel_left]

theorem mem_keys {key : K} {v : V} (h : (key, v) ∈ es) : key ∈ es.map Prod.fst :=
  List.mem_map.mpr ⟨_, h, rfl⟩

/-- The chain of a key has its entry when the table has. -/
theorem Sound.mem (h : ht.Sound hash es) {key : K} {chain : List (K × V)}
    (hchain : ht.table[ht.index (hash key)]? = some chain) (v : V) :
    (key, v) ∈ chain ↔ (key, v) ∈ es := by
  rw [← h.entries.mem_iff]
  exact (h.placed.mem hchain v).symm

section

variable [DecidableEq K]

/- Where the key is in a chain: nowhere, or at a place with its entry. -/
theorem findIdx?_key (chain : List (K × V)) (key : K) :
    (∃ place v, chain.findIdx? (fun e => e.1 = key) = some place ∧ chain[place]? = some (key, v)) ∨
      chain.findIdx? (fun e => e.1 = key) = none ∧ ∀ v, (key, v) ∉ chain := by
  cases hfind : chain.findIdx? fun e => e.1 = key with
  | none =>
    right
    refine ⟨rfl, fun v hv => ?_⟩
    have hne := List.findIdx?_eq_none_iff.mp hfind (key, v) hv
    simp at hne
  | some place =>
    left
    obtain ⟨hlt, hkey, -⟩ := List.findIdx?_eq_some_iff_getElem.mp hfind
    have heq : chain[place].1 = key := by simpa using hkey
    refine ⟨place, chain[place].2, rfl, ?_⟩
    rw [List.getElem?_eq_getElem hlt, ← heq]

theorem Sound.search (h : ht.Sound hash es) (hsize : 0 < ht.size) (key : K) :
    (∃ place v chain, ht.search (hash key) key = some (some place) ∧ (key, v) ∈ es ∧
        ht.table[ht.index (hash key)]? = some chain ∧ chain[place]? = some (key, v)) ∨
      ht.search (hash key) key = some none ∧ ∀ v, (key, v) ∉ es := by
  obtain ⟨chain, hchain⟩ := chain_at hsize (hash key)
  unfold Dictht.search
  rw [hchain, Option.map_some]
  rcases findIdx?_key chain key with ⟨place, v, hfind, hplace⟩ | ⟨hfind, hnot⟩
  · refine Or.inl ⟨place, v, chain, ?_, ?_, rfl, hplace⟩
    · rw [hfind]
    · exact (h.mem hchain v).mp (List.mem_of_getElem? hplace)
  · refine Or.inr ⟨?_, fun v hv => ?_⟩
    · rw [hfind]
    · exact hnot v ((h.mem hchain v).mpr hv)

theorem filter_of_not_mem {key : K} (hnot : ∀ v, (key, v) ∉ es) :
    es.filter (fun e => e.1 ≠ key) = es := by
  apply List.filter_eq_self.mpr
  intro e he
  have hne : e.1 ≠ key := fun heq => hnot e.2 (heq ▸ he)
  simpa using hne

/-- The entry of a key and the others. -/
theorem perm_cons_filter {key : K} {v : V} (hdistinct : (es.map Prod.fst).Nodup)
    (hmem : (key, v) ∈ es) : es ~ (key, v) :: es.filter fun e => e.1 ≠ key := by
  induction es with
  | nil => cases hmem
  | cons e es ih =>
    rw [List.map_cons, List.nodup_cons] at hdistinct
    rcases List.mem_cons.mp hmem with rfl | hmem
    · have hnot : ∀ v, (key, v) ∉ es := fun v hv => hdistinct.1 (mem_keys hv)
      rw [List.filter_cons_of_neg (by simp), filter_of_not_mem hnot]
    · have hne : e.1 ≠ key := fun heq => hdistinct.1 (heq ▸ List.mem_map_of_mem hmem)
      rw [List.filter_cons_of_pos (by simpa using hne)]
      exact ((ih hdistinct.2 hmem).cons e).trans (List.Perm.swap _ _ _)

theorem Sound.unlink (h : ht.Sound hash es) (hsize : 0 < ht.size) (key : K)
    (hdistinct : (es.map Prod.fst).Nodup) :
    (∃ ht' v, ht.unlink (hash key) key = some (some ht') ∧ (key, v) ∈ es ∧ ht'.size = ht.size ∧
        (∀ n, Passed ht.table n → Passed ht'.table n) ∧
        ht'.Sound hash (es.filter fun e => e.1 ≠ key)) ∨
      ht.unlink (hash key) key = some none ∧ ∀ v, (key, v) ∉ es := by
  obtain ⟨chain, hchain⟩ := chain_at hsize (hash key)
  unfold Dictht.unlink
  rw [hchain, Option.map_some]
  rcases findIdx?_key chain key with ⟨place, v, hfind, hplace⟩ | ⟨hfind, hnot⟩
  · have hmem := (h.mem hchain v).mp (List.mem_of_getElem? hplace)
    have hes := perm_cons_filter hdistinct hmem
    obtain ⟨hlt, hentry⟩ := List.getElem?_eq_some_iff.mp hplace
    have hchain' : chain ~ (key, v) :: chain.eraseIdx place := by
      have herase := List.getElem_cons_eraseIdx_perm hlt
      rw [hentry] at herase
      exact herase.symm
    refine Or.inl ⟨_, v, by rw [hfind, Option.map_some], hmem, ?_, ?_, h.set hchain ?_ ?_ ?_⟩
    · simp only [size, List.length_set]
    · intro n hpassed
      exact hpassed.of_set hchain fun hnil => by rw [hnil, List.eraseIdx_nil]
    · intro e he
      exact h.slot hchain e (List.mem_of_mem_eraseIdx he)
    · calc chain.eraseIdx place ++ es
          _ ~ chain.eraseIdx place ++ (key, v) :: es.filter (fun e => e.1 ≠ key) :=
            List.Perm.append_left _ hes
          _ ~ (key, v) :: chain.eraseIdx place ++ es.filter (fun e => e.1 ≠ key) :=
            List.perm_middle
          _ ~ chain ++ es.filter (fun e => e.1 ≠ key) := List.Perm.append_right _ hchain'.symm
    · rw [h.used, hes.length_eq, List.length_cons, Nat.add_sub_cancel]
  · refine Or.inr ⟨?_, fun v hv => ?_⟩
    · rw [hfind, Option.map_none]
    · exact hnot v ((h.mem hchain v).mpr hv)

/-- The entry that is there gets another value. -/
theorem Sound.setVal (h : ht.Sound hash es) {i place : ℕ} {key : K} {v : V}
    {chain : List (K × V)} (hchain : ht.table[i]? = some chain)
    (hplace : chain[place]? = some (key, v)) (hdistinct : (es.map Prod.fst).Nodup) (val : V) :
    ∃ ht', ht.setVal i place val = some ht' ∧ (key, v) ∈ es ∧ ht'.size = ht.size ∧
      (∀ n, Passed ht.table n → Passed ht'.table n) ∧
      ht'.Sound hash ((key, val) :: es.filter fun e => e.1 ≠ key) := by
  have hin := List.mem_of_getElem? hplace
  have hmem : (key, v) ∈ es :=
    h.entries.mem_iff.mp (List.mem_flatten.mpr ⟨chain, List.mem_of_getElem? hchain, hin⟩)
  have hes := perm_cons_filter hdistinct hmem
  obtain ⟨hlt, hentry⟩ := List.getElem?_eq_some_iff.mp hplace
  have hold : chain ~ (key, v) :: chain.eraseIdx place := by
    have herase := List.getElem_cons_eraseIdx_perm hlt
    rw [hentry] at herase
    exact herase.symm
  have hnew : chain.set place (key, val) ~ (key, val) :: chain.eraseIdx place :=
    List.set_perm_cons_eraseIdx hlt _
  refine ⟨_, by rw [Dictht.setVal, hchain, Option.bind_some, hplace, Option.map_some],
    hmem, by simp only [size, List.length_set], ?_, h.set hchain ?_ ?_ ?_⟩
  · intro n hpassed
    exact hpassed.of_set hchain fun hnil => by rw [hnil, List.set_nil]
  · intro e he
    rcases List.mem_or_eq_of_mem_set he with he | rfl
    · exact h.slot hchain e he
    · exact h.slot hchain (key, v) hin
  · calc chain.set place (key, val) ++ es
        _ ~ (key, val) :: chain.eraseIdx place ++ (key, v) :: es.filter (fun e => e.1 ≠ key) :=
          hnew.append hes
        _ ~ (key, val) :: (key, v) :: (chain.eraseIdx place ++ es.filter (fun e => e.1 ≠ key)) :=
          List.perm_middle.cons _
        _ ~ (key, v) :: (key, val) :: (chain.eraseIdx place ++ es.filter (fun e => e.1 ≠ key)) :=
          List.Perm.swap _ _ _
        _ ~ (key, v) :: chain.eraseIdx place ++ (key, val) :: es.filter (fun e => e.1 ≠ key) :=
          (List.perm_middle.symm).cons _
        _ ~ chain ++ (key, val) :: es.filter (fun e => e.1 ≠ key) := List.Perm.append_right _ hold.symm
  · rw [h.used, hes.length_eq, List.length_cons, List.length_cons]

end

end Dictht

/-! ### Moving from one table to the other -/

open scoped List

theorem skipEmpty_spec {table : List (List (K × V))} (hne : table.flatten ≠ []) {visits idx : ℕ}
    (hvisits : 0 < visits) (hpassed : Passed table idx) :
    ∃ idx' visits', skipEmpty table idx visits = some (idx', visits') ∧ Passed table idx' ∧
      idx ≤ idx' ∧ (visits' = 0 → idx < idx') := by
  induction visits generalizing idx with
  | zero => omega
  | succ visits ih =>
    obtain ⟨chain, hchain⟩ : ∃ chain, table[idx]? = some chain :=
      ⟨_, List.getElem?_eq_getElem (hpassed.lt_length hne)⟩
    rw [skipEmpty, hchain, Option.bind_some]
    by_cases hnil : chain = []
    · subst hnil
      have hpassed' := hpassed.succ hchain
      rw [if_neg (by simp)]
      by_cases hlast : visits = 0
      · exact ⟨idx + 1, 0, if_pos hlast, hpassed', by omega, fun _ => by omega⟩
      · obtain ⟨idx', visits', hskip, hpassed', hle, -⟩ := ih (by omega) hpassed'
        rw [if_neg hlast]
        exact ⟨idx', visits', hskip, hpassed', by omega, fun _ => by omega⟩
    · exact ⟨idx, visits + 1, if_pos hnil, hpassed, Nat.le_refl idx, by omega⟩

theorem moveChain_spec (chain : List (K × V)) (ht0 : Dictht K V) {ht1 : Dictht K V}
    {es : List (K × V)} (hs : ht1.Sound hash es) (hsize : 0 < ht1.size) :
    ∃ ht1', moveChain hash chain ht0 ht1 =
        some ({ ht0 with used := ht0.used - chain.length }, ht1') ∧
      ht1'.Sound hash (chain ++ es) ∧ 0 < ht1'.size := by
  induction chain generalizing ht0 ht1 es with
  | nil => exact ⟨ht1, rfl, hs, hsize⟩
  | cons entry chain ih =>
    obtain ⟨ht, hpush, hsound, hsize'⟩ := hs.push hsize entry
    obtain ⟨ht1', hmove, hsound', hsize''⟩ :=
      ih { ht0 with used := ht0.used - 1 } hsound (hsize' ▸ hsize)
    refine ⟨ht1', ?_, hsound'.perm List.perm_middle, hsize''⟩
    rw [moveChain, hpush, Option.bind_some, hmove, List.length_cons, Nat.sub_sub, Nat.add_comm 1]

/- Both tables, with the buckets that have been moved. -/
structure RehashState.Sound (hash : K → ℕ) (s : RehashState K V) (es₀ es₁ : List (K × V)) :
    Prop where
  first : s.ht0.Sound hash es₀
  second : s.ht1.Sound hash es₁
  size₀ : 0 < s.ht0.size
  size₁ : 0 < s.ht1.size
  passed : Passed s.ht0.table s.rehashidx

namespace RehashState.Sound

variable {s : RehashState K V} {es₀ es₁ : List (K × V)}

theorem flatten_ne (h : s.Sound hash es₀ es₁) (hused : s.ht0.used ≠ 0) :
    s.ht0.table.flatten ≠ [] := by
  intro hnil
  have hlen := h.first.entries.length_eq
  rw [hnil, ← h.first.used] at hlen
  exact hused hlen.symm

theorem idx_lt (h : s.Sound hash es₀ es₁) (hused : s.ht0.used ≠ 0) :
    s.rehashidx < s.ht0.size :=
  h.passed.lt_length (h.flatten_ne hused)

/-- The walk loses no entry, and it comes further or to the end. -/
theorem loop (n : ℕ) {visits : ℕ} (h : s.Sound hash es₀ es₁) (hvisits : 0 < visits) :
    ∃ s' givenUp es₀' es₁', rehashLoop hash n visits s = some (s', givenUp) ∧
      s'.Sound hash es₀' es₁' ∧ es₀ ++ es₁ ~ es₀' ++ es₁' ∧
      s.rehashidx ≤ s'.rehashidx ∧ (0 < n → s'.ht0.used = 0 ∨ s.rehashidx < s'.rehashidx) ∧
      s'.ht0.size = s.ht0.size ∧ (givenUp = true → s'.ht0.used ≠ 0) := by
  induction n generalizing visits s es₀ es₁ with
  | zero => exact ⟨s, false, es₀, es₁, rfl, h, List.Perm.refl _, Nat.le_refl _, by omega, rfl, by simp⟩
  | succ n ih =>
    rw [rehashLoop]
    by_cases hused : s.ht0.used = 0
    · rw [if_pos hused]
      exact ⟨s, false, es₀, es₁, rfl, h, List.Perm.refl _, Nat.le_refl _, fun _ => Or.inl hused, rfl,
        by simp⟩
    · have hne := h.flatten_ne hused
      obtain ⟨idx, visits', hskip, hpassed, hle, hlt⟩ := skipEmpty_spec hne hvisits h.passed
      rw [if_neg hused, if_neg (Nat.not_le.mpr (h.idx_lt hused)), hskip]
      simp only [Option.bind_eq_bind, Option.bind_some]
      by_cases hgiven : visits' = 0
      · rw [if_pos hgiven]
        exact ⟨_, true, es₀, es₁, rfl, ⟨h.first, h.second, h.size₀, h.size₁, hpassed⟩,
          List.Perm.refl _, hle, fun _ => Or.inr (hlt hgiven), rfl, fun _ => hused⟩
      · obtain ⟨chain, hchain⟩ : ∃ chain, s.ht0.table[idx]? = some chain :=
          ⟨_, List.getElem?_eq_getElem (hpassed.lt_length hne)⟩
        obtain ⟨rest, hes, hfirst⟩ := h.first.take hchain
        obtain ⟨ht1, hmove, hsecond, hsize₁⟩ := moveChain_spec chain s.ht0 h.second h.size₁
        rw [if_neg hgiven, hchain, Option.bind_some, hmove, Option.bind_some]
        have hmoved : RehashState.Sound hash
            ⟨⟨s.ht0.table.set idx [], s.ht0.used - chain.length⟩, ht1, idx + 1⟩ rest (chain ++ es₁) :=
          ⟨hfirst, hsecond, by simpa [Dictht.size] using h.size₀, hsize₁, hpassed.set⟩
        obtain ⟨s', givenUp, es₀', es₁', hloop, hs', hperm, hfurther, -, hsize, hup⟩ :=
          ih hmoved (Nat.pos_of_ne_zero hgiven)
        have hbeyond : s.rehashidx < s'.rehashidx := Nat.lt_of_lt_of_le (Nat.lt_succ_of_le hle) hfurther
        refine ⟨s', givenUp, es₀', es₁', hloop, hs', ?_, Nat.le_of_lt hbeyond,
          fun _ => Or.inr hbeyond, ?_, hup⟩
        · calc es₀ ++ es₁
              _ ~ (chain ++ rest) ++ es₁ := List.Perm.append_right _ hes
              _ ~ (rest ++ chain) ++ es₁ := List.Perm.append_right _ List.perm_append_comm
              _ = rest ++ (chain ++ es₁) := by rw [List.append_assoc]
              _ ~ es₀' ++ es₁' := hperm
        · simpa [Dictht.size] using hsize

end RehashState.Sound

/-! ### The entries of a dict -/

namespace Dict

/- The dict holds these entries, in one table or in two. -/
inductive Holds (hash : K → ℕ) : Dict K V → List (K × V) → Prop
  | settled {ht : Dictht K V} {iterators : ℕ} {es : List (K × V)} (sound : ht.Sound hash es)
      (distinct : (es.map Prod.fst).Nodup) : Holds hash ⟨ht, .reset, none, iterators⟩ es
  | rehashing {s : RehashState K V} {iterators : ℕ} {es₀ es₁ es : List (K × V)}
      (sound : s.Sound hash es₀ es₁) (perm : es ~ es₀ ++ es₁) (distinct : (es.map Prod.fst).Nodup) :
      Holds hash ⟨s.ht0, s.ht1, some s.rehashidx, iterators⟩ es

/- What a search for the key has to find. -/
def Found (d : Dict K V) (es : List (K × V)) (key : K) : Option EntryRef → Prop
  | some ref => ∃ v, (key, v) ∈ es ∧ d.deref ref = some (key, v)
  | none => ∀ v, (key, v) ∉ es

variable {d : Dict K V}

@[simp] theorem isRehashing_some (ht0 ht1 : Dictht K V) (idx iterators : ℕ) :
    (⟨ht0, ht1, some idx, iterators⟩ : Dict K V).isRehashing = true := rfl

@[simp] theorem isRehashing_none (ht0 ht1 : Dictht K V) (iterators : ℕ) :
    (⟨ht0, ht1, none, iterators⟩ : Dict K V).isRehashing = false := rfl

theorem holds_create (hash : K → ℕ) : (create : Dict K V).Holds hash [] :=
  .settled (Dictht.sound_fresh 0) List.nodup_nil

/- How far the rehashing is from its end. -/
def ahead (d : Dict K V) : ℕ :=
  d.rehashidx.elim 0 fun idx => d.ht0.size + 1 - idx

theorem ahead_lt (d : Dict K V) : d.ahead < d.slots + 2 := by
  unfold ahead slots
  cases d.rehashidx with
  | none => exact Nat.succ_pos _
  | some idx =>
    rw [Option.elim_some]
    omega

namespace Holds

theorem distinct (h : d.Holds hash es) : (es.map Prod.fst).Nodup := by
  cases h with
  | settled _ distinct => exact distinct
  | rehashing _ _ distinct => exact distinct

theorem size (h : d.Holds hash es) : d.size = es.length := by
  cases h with
  | settled sound => exact sound.used
  | rehashing sound perm =>
    rw [perm.length_eq, List.length_append]
    exact congrArg₂ (· + ·) sound.first.used sound.second.used

theorem perm (h : d.Holds hash es) {es' : List (K × V)} (hperm : es ~ es') :
    d.Holds hash es' := by
  have hdistinct : (es'.map Prod.fst).Nodup := (hperm.map Prod.fst).nodup_iff.mp h.distinct
  cases h with
  | settled sound => exact .settled (sound.perm hperm) hdistinct
  | rehashing sound perm => exact .rehashing sound (hperm.symm.trans perm) hdistinct

/-- Rehashing loses no entry and comes to its end. -/
theorem rehash (h : d.Holds hash es) {n : ℕ} (hn : 0 < n) :
    ∃ d' more, d.rehash hash n = some (d', more) ∧ d'.Holds hash es ∧ more = d'.isRehashing ∧
      (more = true → d'.ahead < d.ahead) ∧ d'.iterators = d.iterators := by
  cases h with
  | @settled ht iterators _ sound distinct =>
    exact ⟨_, false, rfl, .settled sound distinct, rfl, by simp, rfl⟩
  | @rehashing s iterators es₀ es₁ _ sound perm distinct =>
    obtain ⟨s', givenUp, es₀', es₁', hloop, hs', hperm, -, hfurther, hsize, hup⟩ :=
      sound.loop n (Nat.mul_pos hn (by decide : 0 < 10))
    have hes := perm.trans hperm
    by_cases hdone : givenUp = false ∧ s'.ht0.used = 0
    · have hnil : es₀' = [] := List.length_eq_zero_iff.mp (hs'.first.used.symm.trans hdone.2)
      subst hnil
      refine ⟨⟨s'.ht1, .reset, none, iterators⟩, false, ?_, ?_, rfl, by simp, rfl⟩
      · simp only [Dict.rehash, hloop, Option.map_some, if_pos hdone]
      · exact .settled (hs'.second.perm hes.symm) distinct
    · have hused : s'.ht0.used ≠ 0 := by
        intro hzero
        cases hg : givenUp with
        | false => exact hdone ⟨hg, hzero⟩
        | true => exact hup hg hzero
      refine ⟨⟨s'.ht0, s'.ht1, some s'.rehashidx, iterators⟩, true, ?_, ?_, rfl, ?_, rfl⟩
      · simp only [Dict.rehash, hloop, Option.map_some, if_neg hdone]
      · exact .rehashing hs' hes distinct
      · intro _
        have hlt := (hfurther hn).resolve_left hused
        have hidx := hs'.idx_lt hused
        simp only [ahead, Option.elim_some]
        omega

theorem rehashMilliseconds (rounds : ℕ) (h : d.Holds hash es) :
    ∃ d', d.rehashMilliseconds hash rounds = some d' ∧ d'.Holds hash es ∧
      (d.ahead < rounds → d'.isRehashing = false) ∧ d'.iterators = d.iterators := by
  induction rounds generalizing d with
  | zero => exact ⟨d, rfl, h, by omega, rfl⟩
  | succ rounds ih =>
    obtain ⟨d₁, more, hrehash, hd₁, hmore, hless, hiter⟩ := h.rehash (n := 100) (by decide)
    rw [Dict.rehashMilliseconds, hrehash, Option.bind_some]
    cases hm : more with
    | false =>
      subst hm
      exact ⟨d₁, rfl, hd₁, fun _ => hmore.symm, hiter⟩
    | true =>
      have hahead := hless hm
      obtain ⟨d', hrest, hd', hdone, hiter'⟩ := ih hd₁
      exact ⟨d', hrest, hd', fun hr => hdone (by omega), hiter'.trans hiter⟩

theorem rehashStep (h : d.Holds hash es) :
    ∃ d', d.rehashStep hash = some d' ∧ d'.Holds hash es := by
  unfold Dict.rehashStep
  by_cases hstep : d.isRehashing = true ∧ d.iterators = 0
  · obtain ⟨d', more, hrehash, hd', -⟩ := h.rehash (n := 1) (by decide)
    rw [if_pos hstep, hrehash]
    exact ⟨d', rfl, hd'⟩
  · rw [if_neg hstep]
    exact ⟨d, rfl, h⟩

/-! #### Growing and shrinking -/

theorem nextPowerLoop_ge (size : ℕ) : ∀ fuel i, i ≤ nextPowerLoop size fuel i
  | 0, i => Nat.le_refl i
  | fuel + 1, i => by
    unfold nextPowerLoop
    split
    · exact Nat.le_refl i
    · exact Nat.le_trans (by omega) (nextPowerLoop_ge size fuel (i * 2))

theorem le_nextPowerLoop (size : ℕ) : ∀ fuel i, size ≤ i * 2 ^ fuel →
    size ≤ nextPowerLoop size fuel i
  | 0, i, h => by simpa [nextPowerLoop] using h
  | fuel + 1, i, h => by
    unfold nextPowerLoop
    split
    · assumption
    · apply le_nextPowerLoop
      rw [Nat.mul_assoc, ← Nat.pow_succ']
      exact h

theorem nextPowerLoop_le (size : ℕ) : ∀ fuel i, nextPowerLoop size fuel i ≤ max i (2 * size - 2)
  | 0, i => Nat.le_max_left ..
  | fuel + 1, i => by
    unfold nextPowerLoop
    split
    · exact Nat.le_max_left ..
    · have hrest := nextPowerLoop_le size fuel (i * 2)
      omega

/-- The table for a size of up to 2 ^ 60 can be allocated. -/
theorem nextPower_fits (size : ℕ) (h : size ≤ 2 ^ 60) : nextPower size * sizeofPointer < 2 ^ 64 := by
  have hloop := nextPowerLoop_le size 64 DICT_HT_INITIAL_SIZE
  unfold nextPower
  rw [if_neg (by unfold LONG_MAX; omega)]
  unfold DICT_HT_INITIAL_SIZE at hloop ⊢
  unfold sizeofPointer
  omega

theorem nextPower_pos (size : ℕ) : 0 < nextPower size := by
  unfold nextPower
  split
  · exact Nat.succ_pos _
  · exact Nat.lt_of_lt_of_le (by decide) (nextPowerLoop_ge size 64 DICT_HT_INITIAL_SIZE)

theorem le_nextPower (size : ℕ) (h : size < LONG_MAX) : size ≤ nextPower size := by
  unfold nextPower
  rw [if_neg (Nat.not_le.mpr h)]
  apply le_nextPowerLoop
  unfold LONG_MAX at h
  unfold DICT_HT_INITIAL_SIZE
  omega

/- A table of empty buckets for so many entries. -/
def fresh (size : ℕ) : Dictht K V := ⟨List.replicate (nextPower size) [], 0⟩

/-- What `dictExpand` can do. -/
theorem expand_cases (d : Dict K V) (size : ℕ) (hsize : size ≤ 2 ^ 60) :
    d.expand size = some (d, false) ∧
        (d.isRehashing ∨ d.ht0.used > size ∨ nextPower size = d.ht0.size) ∨
      d.rehashidx = none ∧ d.ht0.table = [] ∧
        d.expand size = some ({ d with ht0 := fresh size }, true) ∨
      d.rehashidx = none ∧ d.ht0.table ≠ [] ∧
        d.expand size = some ({ d with ht1 := fresh size, rehashidx := some 0 }, true) := by
  unfold Dict.expand
  dsimp only
  by_cases hbusy : d.isRehashing = true ∨ d.ht0.used > size
  · rw [if_pos hbusy]
    exact Or.inl ⟨rfl, hbusy.imp_right Or.inl⟩
  · have hnone : d.rehashidx = none := by
      rw [← Option.not_isSome_iff_eq_none]
      exact fun hsome => hbusy (Or.inl hsome)
    rw [if_neg hbusy]
    by_cases hsame : nextPower size = d.ht0.size
    · rw [if_pos hsame]
      exact Or.inl ⟨rfl, Or.inr (Or.inr hsame)⟩
    · rw [if_neg hsame, if_neg (Nat.not_le.mpr (nextPower_fits size hsize))]
      by_cases hnil : d.ht0.table = []
      · exact Or.inr (Or.inl ⟨hnone, hnil, if_pos hnil⟩)
      · exact Or.inr (Or.inr ⟨hnone, hnil, if_neg hnil⟩)

theorem fresh_size (size : ℕ) : (fresh size : Dictht K V).size = nextPower size :=
  List.length_replicate

theorem fresh_size_pos (size : ℕ) : 0 < (fresh size : Dictht K V).size := by
  rw [fresh_size]
  exact nextPower_pos size

theorem expand (h : d.Holds hash es) (size : ℕ) (hsize : size ≤ 2 ^ 60) :
    ∃ d' ok, d.expand size = some (d', ok) ∧ d'.Holds hash es := by
  rcases expand_cases d size hsize with ⟨heq, -⟩ | ⟨hnone, hnil, heq⟩ | ⟨hnone, hne, heq⟩
  · exact ⟨d, false, heq, h⟩
  · refine ⟨_, true, heq, ?_⟩
    cases h with
    | rehashing => cases hnone
    | settled sound distinct =>
      have hentries := sound.entries
      rw [show _ = [] from hnil] at hentries
      rw [List.nil_perm.mp hentries]
      exact .settled (Dictht.sound_fresh _) List.nodup_nil
  · refine ⟨_, true, heq, ?_⟩
    cases h with
    | rehashing => cases hnone
    | @settled ht _ _ sound distinct =>
      have hs : RehashState.Sound hash ⟨ht, fresh size, 0⟩ es [] :=
        ⟨sound, Dictht.sound_fresh _, List.length_pos_iff.mpr hne, fresh_size_pos size,
          fun i hi => absurd hi (Nat.not_lt_zero i)⟩
      exact .rehashing hs (by rw [List.append_nil]) distinct

theorem resize (h : d.Holds hash es) (canResize : Bool) :
    ∃ d' ok, d.resize canResize = some (d', ok) ∧ d'.Holds hash es := by
  unfold Dict.resize
  dsimp only
  split
  · exact ⟨d, false, rfl, h⟩
  · split
    · exact h.expand _ (by decide)
    · exact h.expand _ (by omega)

theorem used_le (h : d.Holds hash es) : d.ht0.used ≤ es.length := by
  rw [← h.size]
  exact Nat.le_add_right _ _

theorem used_flatten (h : d.Holds hash es) : d.ht0.used = d.ht0.table.flatten.length := by
  cases h with
  | settled sound => exact sound.used.trans sound.entries.length_eq.symm
  | rehashing sound => exact sound.first.used.trans sound.first.entries.length_eq.symm

/-- Before an entry is added there is a table, whatever the policy about growing is. -/
theorem expandIfNeeded (h : d.Holds hash es) (canResize : Bool) (hfit : es.length ≤ 2 ^ 59) :
    ∃ d', d.expandIfNeeded canResize = some (d', true) ∧ d'.Holds hash es ∧ 0 < d'.ht0.size := by
  have hused := h.used_le
  unfold Dict.expandIfNeeded
  by_cases hre : d.isRehashing = true
  · rw [if_pos hre]
    cases h with
    | settled => cases hre
    | rehashing sound perm distinct => exact ⟨_, rfl, .rehashing sound perm distinct, sound.size₀⟩
  rw [if_neg hre]
  by_cases hzero : d.ht0.size = 0
  · rw [if_pos hzero]
    have hnil : d.ht0.table = [] := List.length_eq_zero_iff.mp hzero
    obtain ⟨d', ok, hexpand, hd'⟩ := h.expand DICT_HT_INITIAL_SIZE (by decide)
    rcases expand_cases d DICT_HT_INITIAL_SIZE (by decide) with ⟨-, hwhy⟩ | ⟨-, -, heq⟩ | ⟨-, hne, -⟩
    · have hempty : d.ht0.used = 0 := by rw [h.used_flatten, hnil, List.flatten_nil, List.length_nil]
      have hpos := nextPower_pos DICT_HT_INITIAL_SIZE
      rcases hwhy with hwhy | hwhy | hwhy
      · exact absurd hwhy hre
      · omega
      · omega
    · rw [heq] at hexpand
      cases hexpand
      exact ⟨_, heq, hd', fresh_size_pos _⟩
    · exact absurd hnil hne
  rw [if_neg hzero]
  by_cases hgrow : d.ht0.used ≥ d.ht0.size ∧
      (canResize = true ∨ d.ht0.used / d.ht0.size > dict_force_resize_ratio)
  · have hdouble : d.ht0.used * 2 % 2 ^ 64 = d.ht0.used * 2 := Nat.mod_eq_of_lt (by omega)
    rw [if_pos hgrow, hdouble]
    have hbig := le_nextPower (d.ht0.used * 2) (by unfold LONG_MAX; omega)
    obtain ⟨d', ok, hexpand, hd'⟩ := h.expand (d.ht0.used * 2) (by omega)
    rcases expand_cases d (d.ht0.used * 2) (by omega) with ⟨-, hwhy⟩ | ⟨-, hnil, -⟩ | ⟨-, hne, heq⟩
    · rcases hwhy with hwhy | hwhy | hwhy
      · exact absurd hwhy hre
      · omega
      · omega
    · exact absurd (List.length_eq_zero_iff.mpr hnil) hzero
    · rw [heq] at hexpand
      cases hexpand
      exact ⟨_, heq, hd', Nat.pos_of_ne_zero hzero⟩
  · rw [if_neg hgrow]
    exact ⟨d, rfl, h, Nat.pos_of_ne_zero hzero⟩

/-! #### Entries -/

/-- A dict with an entry has a table. -/
theorem size_pos (h : d.Holds hash es) (hne : es ≠ []) : 0 < d.ht0.size := by
  cases h with
  | settled sound =>
    rw [Nat.pos_iff_ne_zero]
    intro hzero
    have hentries := sound.entries
    rw [List.length_eq_zero_iff.mp hzero] at hentries
    exact hne (List.nil_perm.mp hentries)
  | rehashing sound => exact sound.size₀

/-- A key is in one of two lists only. -/
theorem other {es₀ es₁ : List (K × V)} {key : K} (hperm : es ~ es₀ ++ es₁) (hdistinct : (es.map Prod.fst).Nodup) (v w : V)
    (hv : (key, v) ∈ es₀) (hw : (key, w) ∈ es₁) : False := by
  have hkeys := (hperm.map Prod.fst).nodup_iff.mp hdistinct
  rw [List.map_append, List.nodup_append'] at hkeys
  exact hkeys.2.2 (Dictht.mem_keys hv) (Dictht.mem_keys hw)

theorem distinct_halves {es₀ es₁ : List (K × V)} (hperm : es ~ es₀ ++ es₁) (hdistinct : (es.map Prod.fst).Nodup) :
    (es₀.map Prod.fst).Nodup ∧ (es₁.map Prod.fst).Nodup := by
  have hkeys := (hperm.map Prod.fst).nodup_iff.mp hdistinct
  rw [List.map_append] at hkeys
  exact ⟨hkeys.of_append_left, hkeys.of_append_right⟩

section

variable [DecidableEq K]

theorem search (h : d.Holds hash es) (hsize : 0 < d.ht0.size) (key : K) :
    ∃ ref, d.search hash key = some ref ∧ d.Found es key ref := by
  unfold Dict.search
  cases h with
  | @settled ht iterators _ sound distinct =>
    rcases sound.search hsize key with ⟨place, v, chain, hfind, hmem, hchain, hplace⟩ | ⟨hfind, hnot⟩
    · refine ⟨some ⟨false, ht.index (hash key), place⟩, ?_, v, hmem, ?_⟩
      · rw [hfind, Option.bind_some]
      · simp only [deref, Bool.false_eq_true, if_false, hchain, Option.bind_some, hplace]
    · exact ⟨none, by rw [hfind, Option.bind_some]; rfl, hnot⟩
  | @rehashing s iterators es₀ es₁ _ sound perm distinct =>
    rcases sound.first.search sound.size₀ key with
      ⟨place, v, chain, hfind, hmem, hchain, hplace⟩ | ⟨hfind, hnot⟩
    · refine ⟨some ⟨false, s.ht0.index (hash key), place⟩, ?_, v, ?_, ?_⟩
      · rw [hfind, Option.bind_some]
      · exact perm.mem_iff.mpr (List.mem_append_left _ hmem)
      · simp only [deref, Bool.false_eq_true, if_false, hchain, Option.bind_some, hplace]
    · simp only [hfind, Option.bind_some, isRehashing_some, if_true]
      rcases sound.second.search sound.size₁ key with
        ⟨place, v, chain, hfind', hmem, hchain, hplace⟩ | ⟨hfind', hnot'⟩
      · refine ⟨some ⟨true, s.ht1.index (hash key), place⟩, ?_, v, ?_, ?_⟩
        · rw [hfind', Option.map_some, Option.map_some]
        · exact perm.mem_iff.mpr (List.mem_append_right _ hmem)
        · simp only [deref, if_true, hchain, Option.bind_some, hplace]
      · refine ⟨none, by rw [hfind', Option.map_some, Option.map_none], fun v hv => ?_⟩
        rcases List.mem_append.mp (perm.mem_iff.mp hv) with hv | hv
        · exact hnot v hv
        · exact hnot' v hv

/-- A lookup finds the entry of the key, wherever it is, and changes no entry. -/
theorem find (h : d.Holds hash es) (key : K) :
    ∃ d' ref, d.find hash key = some (d', ref) ∧ d'.Holds hash es ∧ d'.Found es key ref := by
  unfold Dict.find
  by_cases hempty : d.ht0.used + d.ht1.used = 0
  · rw [if_pos hempty]
    have hnil : es = [] := List.length_eq_zero_iff.mp (h.size.symm.trans hempty)
    exact ⟨d, none, rfl, h, by simp [Found, hnil]⟩
  · have hne : es ≠ [] := fun hnil => hempty (h.size.trans (by rw [hnil, List.length_nil]))
    obtain ⟨d', hstep, hd'⟩ := h.rehashStep
    obtain ⟨ref, hsearch, hfound⟩ := hd'.search (hd'.size_pos hne) key
    rw [if_neg hempty, hstep, Option.bind_some, hsearch, Option.map_some]
    exact ⟨d', ref, rfl, hd', hfound⟩

theorem distinct_cons_filter {es : List (K × V)} (hdistinct : (es.map Prod.fst).Nodup) (key : K)
    (val : V) : (((key, val) :: es.filter fun e => e.1 ≠ key).map Prod.fst).Nodup := by
  rw [List.map_cons, List.nodup_cons]
  constructor
  · simp
  · exact hdistinct.sublist (List.filter_sublist.map _)

section

variable {es₀ es₁ : List (K × V)} {key : K} {v : V}

theorem filter_first (hperm : es ~ es₀ ++ es₁) (hdistinct : (es.map Prod.fst).Nodup)
    (hmem : (key, v) ∈ es₀) :
    es.filter (fun e => e.1 ≠ key) ~ es₀.filter (fun e => e.1 ≠ key) ++ es₁ := by
  have hnot : ∀ w, (key, w) ∉ es₁ := fun w hw => other hperm hdistinct v w hmem hw
  have hfilter := hperm.filter fun e => e.1 ≠ key
  rwa [List.filter_append, Dictht.filter_of_not_mem hnot] at hfilter

theorem filter_second (hperm : es ~ es₀ ++ es₁) (hdistinct : (es.map Prod.fst).Nodup)
    (hmem : (key, v) ∈ es₁) :
    es.filter (fun e => e.1 ≠ key) ~ es₀ ++ es₁.filter (fun e => e.1 ≠ key) := by
  have hnot : ∀ w, (key, w) ∉ es₀ := fun w hw => other hperm hdistinct w v hw hmem
  have hfilter := hperm.filter fun e => e.1 ≠ key
  rwa [List.filter_append, Dictht.filter_of_not_mem hnot] at hfilter

end

/-- Setting the value of an entry that was found. -/
theorem setVal (h : d.Holds hash es) {ref : EntryRef} {key : K} {v : V}
    (hderef : d.deref ref = some (key, v)) (val : V) :
    ∃ d', d.setVal ref val = some d' ∧
      d'.Holds hash ((key, val) :: es.filter fun e => e.1 ≠ key) := by
  have hdistinct' := distinct_cons_filter h.distinct key val
  obtain ⟨second, i, place⟩ := ref
  obtain ⟨chain, hchain, hplace⟩ := Option.bind_eq_some_iff.mp hderef
  unfold Dict.setVal
  cases h with
  | @settled ht iterators _ sound distinct =>
    cases second with
    | true => cases hchain
    | false =>
      obtain ⟨ht', hset, -, -, -, hsound⟩ := sound.setVal hchain hplace distinct val
      refine ⟨⟨ht', .reset, none, iterators⟩, ?_, .settled hsound hdistinct'⟩
      simp only [Bool.false_eq_true, if_false, hset, Option.map_some]
  | @rehashing s iterators es₀ es₁ _ sound perm distinct =>
    have hhalves := distinct_halves perm distinct
    cases second with
    | false =>
      obtain ⟨ht', hset, hmem, hsize, hpassed, hsound⟩ :=
        sound.first.setVal hchain hplace hhalves.1 val
      have hs : RehashState.Sound hash ⟨ht', s.ht1, s.rehashidx⟩ _ es₁ :=
        ⟨hsound, sound.second, hsize ▸ sound.size₀, sound.size₁, hpassed _ sound.passed⟩
      refine ⟨⟨ht', s.ht1, some s.rehashidx, iterators⟩, ?_, .rehashing hs ?_ hdistinct'⟩
      · simp only [Bool.false_eq_true, if_false, hset, Option.map_some]
      · exact (filter_first perm distinct hmem).cons _
    | true =>
      obtain ⟨ht', hset, hmem, hsize, -, hsound⟩ :=
        sound.second.setVal hchain hplace hhalves.2 val
      have hs : RehashState.Sound hash ⟨s.ht0, ht', s.rehashidx⟩ es₀ _ :=
        ⟨sound.first, hsound, sound.size₀, hsize ▸ sound.size₁, sound.passed⟩
      refine ⟨⟨s.ht0, ht', some s.rehashidx, iterators⟩, ?_, .rehashing hs ?_ hdistinct'⟩
      · simp only [if_true, hset, Option.map_some]
      · exact ((filter_second perm distinct hmem).cons _).trans List.perm_middle.symm

/-- A deletion takes out the entry of the key, wherever it is, and says whether there was one. -/
theorem delete (h : d.Holds hash es) (key : K) :
    ∃ d' found, d.delete hash key = some (d', found) ∧ (found = true ↔ key ∈ es.map Prod.fst) ∧
      d'.Holds hash (es.filter fun e => e.1 ≠ key) := by
  have hdistinct' : ((es.filter fun e => e.1 ≠ key).map Prod.fst).Nodup :=
    h.distinct.sublist (List.filter_sublist.map _)
  have hpresent : ∀ v, (key, v) ∈ es → (true = true ↔ key ∈ es.map Prod.fst) :=
    fun v hv => iff_of_true rfl (Dictht.mem_keys hv)
  have habsent : (∀ v, (key, v) ∉ es) → (false = true ↔ key ∈ es.map Prod.fst) := by
    intro hnot
    refine iff_of_false Bool.false_ne_true ?_
    rw [List.mem_map]
    rintro ⟨e, he, rfl⟩
    exact hnot e.2 he
  unfold Dict.delete
  by_cases hempty : d.ht0.used = 0 ∧ d.ht1.used = 0
  · have hnil : es = [] := by
      rw [← List.length_eq_zero_iff, ← h.size, Dict.size, hempty.1, hempty.2]
    subst hnil
    rw [if_pos hempty]
    exact ⟨d, false, rfl, by simp, h⟩
  have hne : es ≠ [] := by
    rintro rfl
    have hzero : d.ht0.used + d.ht1.used = 0 := h.size
    omega
  obtain ⟨d', hstep, hd'⟩ := h.rehashStep
  have hpos := hd'.size_pos hne
  rw [if_neg hempty, hstep, Option.bind_some]
  cases hd' with
  | @settled ht iterators _ sound distinct =>
    rcases sound.unlink hpos key distinct with ⟨ht', v, hunlink, hmem, -, -, hsound⟩ | ⟨hunlink, hnot⟩
    · refine ⟨⟨ht', .reset, none, iterators⟩, true, ?_, hpresent v hmem, .settled hsound hdistinct'⟩
      rw [hunlink, Option.bind_some]
    · rw [Dictht.filter_of_not_mem hnot, hunlink, Option.bind_some]
      exact ⟨_, false, rfl, habsent hnot, .settled sound distinct⟩
  | @rehashing s iterators es₀ es₁ _ sound perm distinct =>
    have hhalves := distinct_halves perm distinct
    rcases sound.first.unlink hpos key hhalves.1 with
      ⟨ht', v, hunlink, hmem, hsize, hpassed, hsound⟩ | ⟨hunlink, hnot⟩
    · have hs : RehashState.Sound hash ⟨ht', s.ht1, s.rehashidx⟩ _ es₁ :=
        ⟨hsound, sound.second, hsize ▸ sound.size₀, sound.size₁, hpassed _ sound.passed⟩
      refine ⟨⟨ht', s.ht1, some s.rehashidx, iterators⟩, true, ?_,
        hpresent v (perm.mem_iff.mpr (List.mem_append_left _ hmem)),
        .rehashing hs (filter_first perm distinct hmem) hdistinct'⟩
      rw [hunlink, Option.bind_some]
    · simp only [hunlink, Option.bind_some, isRehashing_some, if_true]
      rcases sound.second.unlink sound.size₁ key hhalves.2 with
        ⟨ht', v, hunlink', hmem, hsize, -, hsound⟩ | ⟨hunlink', hnot'⟩
      · have hs : RehashState.Sound hash ⟨s.ht0, ht', s.rehashidx⟩ es₀ _ :=
          ⟨sound.first, hsound, sound.size₀, hsize ▸ sound.size₁, sound.passed⟩
        refine ⟨⟨s.ht0, ht', some s.rehashidx, iterators⟩, true, ?_,
          hpresent v (perm.mem_iff.mpr (List.mem_append_right _ hmem)),
          .rehashing hs (filter_second perm distinct hmem) hdistinct'⟩
        rw [hunlink', Option.map_some]
      · have hnone : ∀ v, (key, v) ∉ es := by
          intro v hv
          rcases List.mem_append.mp (perm.mem_iff.mp hv) with hv | hv
          · exact hnot v hv
          · exact hnot' v hv
        rw [Dictht.filter_of_not_mem hnone, hunlink', Option.map_some]
        exact ⟨_, false, rfl, habsent hnone, .rehashing sound perm distinct⟩

theorem addRaw (h : d.Holds hash es) (canResize : Bool) (key : K) (val : V)
    (hfit : es.length ≤ 2 ^ 59) :
    (∃ d', d.addRaw hash canResize key val = some (d', none) ∧ d'.Holds hash ((key, val) :: es) ∧
        ∀ v, (key, v) ∉ es) ∨
      ∃ d' ref v, d.addRaw hash canResize key val = some (d', some (some ref)) ∧ d'.Holds hash es ∧
        (key, v) ∈ es ∧ d'.deref ref = some (key, v) := by
  obtain ⟨d₁, hstep, hd₁⟩ := h.rehashStep
  obtain ⟨d₂, hexpand, hd₂, hsize⟩ := hd₁.expandIfNeeded canResize hfit
  obtain ⟨ref, hsearch, hfound⟩ := hd₂.search hsize key
  unfold Dict.addRaw
  rw [hstep, Option.bind_some, hexpand, Option.bind_some]
  dsimp only
  rw [if_neg (by simp), hsearch, Option.bind_some]
  cases ref with
  | some ref =>
    obtain ⟨v, hmem, hderef⟩ := hfound
    exact Or.inr ⟨d₂, ref, v, rfl, hd₂, hmem, hderef⟩
  | none =>
    left
    have hdistinct : (((key, val) :: es).map Prod.fst).Nodup := by
      have hcons := distinct_cons_filter h.distinct key val
      rwa [Dictht.filter_of_not_mem hfound] at hcons
    cases hd₂ with
    | @settled ht iterators _ sound distinct =>
      obtain ⟨ht', hpush, hsound, -⟩ := sound.push hsize (key, val)
      refine ⟨⟨ht', .reset, none, iterators⟩, ?_, .settled hsound hdistinct, hfound⟩
      simp only [isRehashing_none, Bool.false_eq_true, if_false, hpush, Option.map_some]
    | @rehashing s iterators es₀ es₁ _ sound perm distinct =>
      obtain ⟨ht', hpush, hsound, hsize'⟩ := sound.second.push sound.size₁ (key, val)
      have hs : RehashState.Sound hash ⟨s.ht0, ht', s.rehashidx⟩ es₀ ((key, val) :: es₁) :=
        ⟨sound.first, hsound, sound.size₀, hsize' ▸ sound.size₁, sound.passed⟩
      refine ⟨⟨s.ht0, ht', some s.rehashidx, iterators⟩, ?_, ?_, hfound⟩
      · simp only [isRehashing_some, if_true, hpush, Option.map_some]
      · exact .rehashing hs ((perm.cons _).trans List.perm_middle.symm) hdistinct

theorem add (h : d.Holds hash es) (canResize : Bool) (key : K) (val : V)
    (hfit : es.length ≤ 2 ^ 59) :
    ∃ d' ok es', d.add hash canResize key val = some (d', ok) ∧ d'.Holds hash es' ∧
      (ok = true ∧ key ∉ es.map Prod.fst ∧ es' = (key, val) :: es ∨
        ok = false ∧ key ∈ es.map Prod.fst ∧ es' = es) := by
  unfold Dict.add
  rcases h.addRaw canResize key val hfit with ⟨d', hadd, hd', hnot⟩ | ⟨d', ref, v, hadd, hd', hmem, -⟩
  · refine ⟨d', true, _, by rw [hadd]; rfl, hd', Or.inl ⟨rfl, ?_, rfl⟩⟩
    rw [List.mem_map]
    rintro ⟨e, he, rfl⟩
    exact hnot e.2 he
  · exact ⟨d', false, es, by rw [hadd]; rfl, hd', Or.inr ⟨rfl, Dictht.mem_keys hmem, rfl⟩⟩

end

end Holds

/-! ### Iterating -/

variable {iter : DictIterator K V}

def current (d : Dict K V) (iter : DictIterator K V) : Dictht K V :=
  if iter.second then d.ht1 else d.ht0

/- The entries the iterator has not come to yet. -/
def unvisited (d : Dict K V) (iter : DictIterator K V) : List (K × V) :=
  iter.chain ++ ((d.current iter).table.drop (iter.index.elim 0 (· + 1))).flatten ++
    if d.isRehashing ∧ iter.second = false then d.ht1.table.flatten else []

/- The buckets it has not come to yet. -/
def bucketsLeft (d : Dict K V) (iter : DictIterator K V) : ℕ :=
  ((d.current iter).size - iter.index.elim 0 (· + 1)) + if iter.second then 0 else d.ht1.size

/- What a call of `dictNext` does, when `all` are the entries to come. -/
def Advances (d' : Dict K V) (safe : Bool) (all : List (K × V)) :
    Option (Dict K V × DictIterator K V × Option (K × V)) → Prop
  | none => False
  | some (d, iter, entry) => d = d' ∧ iter.safe = safe ∧ iter.index ≠ none ∧
    match entry with
    | none => all = []
    | some e => all = e :: d.unvisited iter

theorem drop_flatten {table : List (List (K × V))} {n : ℕ} {chain : List (K × V)}
    (h : table[n]? = some chain) :
    (table.drop n).flatten = chain ++ (table.drop (n + 1)).flatten := by
  obtain ⟨hlt, rfl⟩ := List.getElem?_eq_some_iff.mp h
  rw [List.drop_eq_getElem_cons hlt, List.flatten_cons]

theorem next_started (hroom : d.isRehashing = true → 0 < d.ht1.size) (fuel : ℕ) {i : ℕ}
    (hi : iter.index = some i) (hfuel : d.bucketsLeft iter < fuel) :
    Advances d iter.safe (d.unvisited iter) (d.next fuel iter) := by
  induction fuel generalizing iter i with
  | zero => omega
  | succ fuel ih =>
    obtain ⟨second, index, safe, chain⟩ := iter
    subst hi
    cases chain with
    | cons e chain => exact ⟨rfl, rfl, by simp, rfl⟩
    | nil =>
      have hcur : (if second = true then d.ht1 else d.ht0) = d.current ⟨second, some i, safe, []⟩ := rfl
      have hmark : d.mark ⟨second, some i, safe, []⟩ = d := if_neg (by simp)
      simp only [next, hmark, Option.elim_some, hcur]
      simp only [bucketsLeft, Option.elim_some] at hfuel
      by_cases hend : i + 1 ≥ (d.current ⟨second, some i, safe, []⟩).size
      · rw [if_pos hend]
        by_cases hswitch : d.isRehashing = true ∧ second = false
        · obtain ⟨hre, rfl⟩ := hswitch
          rw [if_pos ⟨hre, rfl⟩]
          obtain ⟨chain, hchain⟩ : ∃ chain, d.ht1.table[0]? = some chain :=
            ⟨_, List.getElem?_eq_getElem (hroom hre)⟩
          have hleft : d.bucketsLeft ⟨true, some 0, safe, chain⟩ < fuel := by
            have hpos := hroom hre
            simp only [bucketsLeft, current, Option.elim_some, Bool.false_eq_true, if_false, if_true]
              at hfuel ⊢
            omega
          have hall : d.unvisited ⟨false, some i, safe, []⟩ = d.unvisited ⟨true, some 0, safe, chain⟩ := by
            have hall := drop_flatten hchain
            rw [List.drop_zero] at hall
            simp only [unvisited, current, Option.elim_some, List.nil_append, hre, and_self, if_true,
              Bool.true_eq_false, and_false, if_false, List.append_nil, Bool.false_eq_true] at hend ⊢
            rw [List.drop_eq_nil_of_le hend, hall]
            rfl
          rw [hchain, Option.bind_some, hall]
          exact @ih ⟨true, some 0, safe, chain⟩ 0 rfl hleft
        · rw [if_neg hswitch]
          refine ⟨rfl, rfl, by simp, ?_⟩
          simp only [unvisited, List.nil_append, Option.elim_some]
          rw [if_neg hswitch, List.drop_eq_nil_of_le hend]
          rfl
      · rw [if_neg hend]
        obtain ⟨chain, hchain⟩ :
            ∃ chain, (d.current ⟨second, some i, safe, []⟩).table[i + 1]? = some chain :=
          ⟨_, List.getElem?_eq_getElem (Nat.lt_of_not_le hend)⟩
        have hleft : d.bucketsLeft ⟨second, some (i + 1), safe, chain⟩ < fuel := by
          simp only [bucketsLeft, Option.elim_some]
          change ((d.current ⟨second, some i, safe, []⟩).size - (i + 1 + 1)) + _ < fuel
          omega
        have hall : d.unvisited ⟨second, some i, safe, []⟩ =
            d.unvisited ⟨second, some (i + 1), safe, chain⟩ := by
          simp only [unvisited, Option.elim_some, List.nil_append]
          rw [drop_flatten hchain]
          rfl
        rw [hchain, Option.bind_some, hall]
        exact @ih ⟨second, some (i + 1), safe, chain⟩ (i + 1) rfl hleft

/-- The first call marks a safe iterator in the dict. -/
theorem next_first (hroom₀ : d.isRehashing = true → 0 < d.ht0.size)
    (hroom : d.isRehashing = true → 0 < d.ht1.size) (safe : Bool) {fuel : ℕ}
    (hfuel : d.slots < fuel) :
    Advances { d with iterators := d.iterators + if safe then 1 else 0 } safe
      (d.ht0.table.flatten ++ if d.isRehashing then d.ht1.table.flatten else [])
      (d.next (fuel + 1) (getIterator safe)) := by
  have hmark : d.mark (getIterator safe) =
      { d with iterators := d.iterators + if safe then 1 else 0 } := by
    cases safe
    · rfl
    · rfl
  unfold getIterator at hmark ⊢
  simp only [next, hmark, Option.elim_none, Bool.false_eq_true, if_false]
  by_cases hzero : 0 ≥ d.ht0.size
  · have hre : d.isRehashing ≠ true := fun hre => by
      have hpos := hroom₀ hre
      omega
    have hnil : d.ht0.table = [] := List.length_eq_zero_iff.mp (Nat.le_zero.mp hzero)
    have hstop : ¬(({ d with iterators := d.iterators + if safe then 1 else 0 } : Dict K V).isRehashing =
        true ∧ True) := fun h => hre h.1
    rw [if_pos hzero, if_neg hstop]
    refine ⟨rfl, rfl, by simp, ?_⟩
    simp [hnil, hre]
  · obtain ⟨chain, hchain⟩ : ∃ chain, d.ht0.table[0]? = some chain :=
      ⟨_, List.getElem?_eq_getElem (Nat.lt_of_not_le hzero)⟩
    have hall := drop_flatten hchain
    rw [List.drop_zero] at hall
    rw [if_neg hzero, hchain, Option.bind_some, hall]
    have hnext := @next_started K V { d with iterators := d.iterators + if safe then 1 else 0 }
      ⟨false, some 0, safe, chain⟩ hroom fuel 0 rfl
    simp only [bucketsLeft, current, unvisited, Option.elim_some, Bool.false_eq_true, if_false,
      and_true] at hnext
    refine hnext ?_
    unfold slots at hfuel
    omega

theorem nextAll_started (hroom : d.isRehashing = true → 0 < d.ht1.size) (n : ℕ) {i : ℕ}
    (hi : iter.index = some i) (hn : (d.unvisited iter).length < n) :
    ∃ iter', d.nextAll n iter = some (d, iter', d.unvisited iter) ∧ iter'.safe = iter.safe ∧
      iter'.index ≠ none := by
  induction n generalizing iter i with
  | zero => omega
  | succ n ih =>
    have hfuel : d.bucketsLeft iter < d.slots + 2 := by
      unfold bucketsLeft current slots
      split <;> omega
    have hnext := next_started hroom (d.slots + 2) hi hfuel
    rw [nextAll]
    generalize d.next (d.slots + 2) iter = result at hnext
    cases result with
    | none => cases hnext
    | some result =>
      obtain ⟨d', iter', entry⟩ := result
      obtain ⟨rfl, hsafe, hindex, hall⟩ := hnext
      rw [Option.bind_some]
      cases entry with
      | none =>
        refine ⟨iter', ?_, hsafe, hindex⟩
        rw [show d'.unvisited iter = [] from hall]
      | some e =>
        have hall : d'.unvisited iter = e :: d'.unvisited iter' := hall
        obtain ⟨j, hj⟩ := Option.ne_none_iff_exists'.mp hindex
        rw [hall, List.length_cons] at hn
        obtain ⟨iter'', hrest, hsafe', hindex'⟩ := ih hj (by omega)
        refine ⟨iter'', ?_, hsafe'.trans hsafe, hindex'⟩
        simp only [hrest, Option.map_some, hall]

/-- An iterator comes to every entry once and leaves the dict as it was. -/
theorem Holds.iterate (h : d.Holds hash es) (safe : Bool) :
    ∃ listed, d.iterate safe = some (d, listed) ∧ listed ~ es := by
  have hroom₀ : d.isRehashing = true → 0 < d.ht0.size := by
    cases h with
    | settled => simp
    | rehashing sound => exact fun _ => sound.size₀
  have hroom : d.isRehashing = true → 0 < d.ht1.size := by
    cases h with
    | settled => simp
    | rehashing sound => exact fun _ => sound.size₁
  have hall : (d.ht0.table.flatten ++ if d.isRehashing then d.ht1.table.flatten else []) ~ es := by
    cases h with
    | settled sound => simpa using sound.entries
    | rehashing sound perm => exact (sound.first.entries.append sound.second.entries).trans perm.symm
  have hfirst := next_first hroom₀ hroom safe (Nat.lt_succ_self d.slots)
  refine ⟨_, ?_, hall⟩
  unfold Dict.iterate
  rw [nextAll]
  generalize d.next (d.slots + 2) (getIterator safe) = result at hfirst ⊢
  cases result with
  | none => cases hfirst
  | some result =>
    obtain ⟨d', iter', entry⟩ := result
    obtain ⟨hd', hsafe, hindex, hrest⟩ := hfirst
    obtain ⟨j, hj⟩ := Option.ne_none_iff_exists'.mp hindex
    have hrelease : ∀ i : DictIterator K V, i.index ≠ none → i.safe = safe →
        d'.releaseIterator i = d := by
      intro i hi hs
      rw [releaseIterator, if_neg (fun h => hi h.1), hs, hd']
      cases safe
      · rfl
      · rfl
    rw [Option.bind_some]
    cases entry with
    | none =>
      have hrest : _ = [] := hrest
      simp only [Option.map_some, hrelease iter' hindex hsafe, hrest]
    | some e =>
      have hrest : _ = e :: d'.unvisited iter' := hrest
      have hlen : (d'.unvisited iter').length < d.size := by
        rw [h.size, ← hall.length_eq, hrest, List.length_cons]
        exact Nat.lt_succ_self _
      obtain ⟨iter'', hall', hsafe', hindex'⟩ :=
        nextAll_started (d := d') (by rw [hd']; exact hroom) d.size hj hlen
      simp only [hall', Option.map_some, hrelease iter'' hindex' (hsafe'.trans hsafe), hrest]

end Dict

end NodeServer.Redis

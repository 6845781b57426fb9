import NodeServer.Redis.Intset
import NodeServer.Redis.DictEntries

/-! # Set objects (`redis-5.0.2/src/t_set.c`)

A set of integers is an intset as long as it is small, and a hash table of texts after
that. Which of the two it is cannot be seen from outside. -/

namespace NodeServer.Redis

/- How texts are hashed, and up to which size a set of integers is an intset
(`set-max-intset-entries`). -/
structure Config where
  hash : Str → ℕ
  setMaxIntsetEntries : ℕ

/- What a command meets: whether hash tables may grow, and what fresh memory holds. -/
structure Ambient where
  canResize : Bool
  junk : ℕ → UInt8

/- An `robj` of type `OBJ_SET`, by its encoding. -/
inductive SetObj where
  | intset (is : Intset)
  | ht (d : Dict Str Unit)

variable (cfg : Config) (amb : Ambient)

namespace SetObj

/-- `setTypeCreate` (t_set.c:42). -/
def create (value : Str) : SetObj :=
  match string2ll value with
  | some _ => .intset .new
  | none => .ht .create

/- The loop of `setTypeConvert` (t_set.c:250-253), from a position on. An element that is
already there is a failed assertion. -/
def convertLoop (is : Intset) : ℕ → ℕ → Dict Str Unit → Option (Dict Str Unit)
  | 0, _, _ => none
  | n + 1, ii, d => (is.getAt ii).bind fun element => match element with
    | none => some d
    | some intele => (sdsfromlonglong intele).bind fun element =>
      (d.add cfg.hash amb.canResize element ()).bind fun (d, ok) =>
        if ok then convertLoop is n (ii + 1) d else none

/-- `setTypeConvert` (t_set.c:235). -/
def convert (is : Intset) : Option (Dict Str Unit) :=
  (Dict.create.expand is.length).bind fun (d, _) => convertLoop cfg amb is (is.length + 1) 0 d

/-- `setTypeAdd` (t_set.c:52): whether the value is new. -/
def add : SetObj → Str → Option (SetObj × Bool)
  | .ht d, value => (d.add cfg.hash amb.canResize value ()).map fun (d, ok) => (.ht d, ok)
  | .intset is, value => match string2ll value with
    | some llval => (is.add llval amb.junk).bind fun (is, success) =>
      if success ∧ is.length > cfg.setMaxIntsetEntries then
        (convert cfg amb is).map fun d => (.ht d, true)
      else some (.intset is, success)
    | none => (convert cfg amb is).bind fun d =>
      (d.add cfg.hash amb.canResize value ()).bind fun (d, ok) =>
        if ok then some (.ht d, true) else none

/-- `setTypeRemove` (t_set.c:88): whether the value was there. -/
def remove : SetObj → Str → Option (SetObj × Bool)
  | .ht d, value => (d.delete cfg.hash value).bind fun (d, ok) =>
    if ok ∧ d.needsResize then (d.resize amb.canResize).map fun (d, _) => (.ht d, ok)
    else some (.ht d, ok)
  | .intset is, value => match string2ll value with
    | some llval => (is.remove llval amb.junk).map fun (is, success) => (.intset is, success)
    | none => some (.intset is, false)

/-- `setTypeSize` (t_set.c:222). -/
def size : SetObj → ℕ
  | .ht d => d.size
  | .intset is => is.length

/- The elements of an intset from a position on, as they are put into a reply. -/
def elementsFrom (is : Intset) : ℕ → ℕ → Option (List Str)
  | 0, _ => none
  | n + 1, ii => (is.getAt ii).bind fun element => match element with
    | none => some []
    | some intobj => (bulkLongLong intobj).bind fun text =>
      (elementsFrom is n (ii + 1)).map fun texts => text :: texts

/- What `setTypeNext` (t_set.c:154) gives from the start to the end of an iteration. -/
def elements : SetObj → Option (SetObj × List Str)
  | .ht d => (d.iterate false).map fun (d, entries) => (.ht d, entries.map Prod.fst)
  | .intset is => (elementsFrom is (is.length + 1) 0).map fun texts => (.intset is, texts)

end SetObj

/-! ### Texts and integers -/

open Bytes

theorem longLong_of_fits {enc : ℕ} {v : ℤ} (henc : IsEncoding enc) (hv : Fits enc v) : IsLongLong v := by
  have h8 : Fits 8 v := hv.mono (encoding_le_eight henc).2
  unfold Fits at h8
  unfold IsLongLong LLONG_MIN LLONG_MAX
  omega

theorem Holds.longLong {is : Intset} {vals : List ℤ} (h : Holds is vals) {v : ℤ} (hv : v ∈ vals) :
    IsLongLong v :=
  longLong_of_fits h.enc (h.fits v hv)

/-! ### The set behind an object -/

namespace SetObj

variable {cfg}

inductive Represents (cfg : Config) : SetObj → Finset Str → Prop
  | intset {is : Intset} {vals : List ℤ} {S : Finset Str} (holds : Redis.Holds is vals)
      (few : vals.length ≤ cfg.setMaxIntsetEntries) (mem : ∀ m, m ∈ S ↔ ∃ v ∈ vals, decimal v = m) :
      Represents cfg (.intset is) S
  | ht {d : Dict Str Unit} {es : List (Str × Unit)} {S : Finset Str} (holds : d.Holds cfg.hash es)
      (mem : ∀ m, m ∈ S ↔ m ∈ es.map Prod.fst) : Represents cfg (.ht d) S

variable {o : SetObj} {S : Finset Str}

theorem create_represents (value : Str) : Represents cfg (create value) ∅ := by
  have hnew : Redis.Holds Intset.new [] :=
    ⟨Or.inl rfl, rfl, rfl, List.forall_mem_nil _, List.Pairwise.nil⟩
  unfold create
  split
  · exact .intset hnew (Nat.zero_le _) (by simp)
  · exact .ht (Dict.holds_create _) (by simp)

/-- A value of an intset, by its text. -/
theorem mem_intset {is : Intset} {vals : List ℤ} (hs : Redis.Holds is vals)
    (hmem : ∀ m, m ∈ S ↔ ∃ v ∈ vals, decimal v = m) {value : Str} {llval : ℤ}
    (hval : string2ll value = some llval) : value ∈ S ↔ llval ∈ vals := by
  obtain ⟨hlong, rfl⟩ := (string2ll_iff value llval).mp hval
  rw [hmem]
  constructor
  · rintro ⟨v, hv, heq⟩
    exact decimal_inj (hs.longLong hv) hlong heq ▸ hv
  · exact fun h => ⟨llval, h, rfl⟩

/-- A text that is no integer is in no intset. -/
theorem not_mem_intset {is : Intset} {vals : List ℤ} (hs : Redis.Holds is vals)
    (hmem : ∀ m, m ∈ S ↔ ∃ v ∈ vals, decimal v = m) {value : Str}
    (hval : string2ll value = none) : value ∉ S := by
  rw [hmem]
  rintro ⟨v, hv, rfl⟩
  rw [(string2ll_iff _ v).mpr ⟨hs.longLong hv, rfl⟩] at hval
  cases hval

/-- The elements come over one by one, each for the first time. -/
theorem convertLoop_spec {is : Intset} (rest done : List ℤ)
    (hs : Redis.Holds is (done ++ rest)) {d : Dict Str Unit} {es : List (Str × Unit)}
    (hd : d.Holds cfg.hash es) (hkeys : es.map Prod.fst = (done.map decimal).reverse) {n : ℕ}
    (hn : rest.length < n) (hfit : (done ++ rest).length ≤ 2 ^ 59)
    (hmin : LLONG_MIN ∉ done ++ rest) :
    ∃ d' es', convertLoop cfg amb is n done.length d = some d' ∧ d'.Holds cfg.hash es' ∧
      es'.map Prod.fst = ((done ++ rest).map decimal).reverse := by
  induction rest generalizing done d es n with
  | nil =>
    obtain ⟨n, rfl⟩ := Nat.exists_eq_add_one.mpr (Nat.zero_lt_of_lt hn)
    refine ⟨d, es, ?_, hd, by rw [hkeys, List.append_nil]⟩
    rw [convertLoop, hs.lists, List.append_nil, List.getElem?_eq_none (Nat.le_refl _)]
    rfl
  | cons v rest ih =>
    obtain ⟨n, rfl⟩ := Nat.exists_eq_add_one.mpr (Nat.zero_lt_of_lt hn)
    have hget : is.getAt done.length = some (some v) := by
      rw [hs.lists, List.getElem?_append_right (Nat.le_refl _), Nat.sub_self, List.getElem?_cons_zero]
    have hfresh : decimal v ∉ es.map Prod.fst := by
      rw [hkeys, List.mem_reverse, List.mem_map]
      rintro ⟨w, hw, heq⟩
      have hlt := (List.pairwise_append.mp hs.sorted).2.2 w hw v List.mem_cons_self
      have heq := decimal_inj (hs.longLong (List.mem_append_left _ hw)) (hs.longLong (by simp)) heq
      omega
    have hlen : es.length = done.length := by
      rw [← List.length_map Prod.fst, hkeys, List.length_reverse, List.length_map]
    have htext : sdsfromlonglong v = some (decimal v) :=
      sdsfromlonglong_eq (hs.longLong (by simp)) fun heq => hmin (by simp [heq])
    rw [List.length_append, List.length_cons] at hfit
    obtain ⟨d', ok, es', hadd, hd', hcases⟩ := hd.add amb.canResize (decimal v) () (by omega)
    obtain ⟨rfl, -, rfl⟩ := hcases.resolve_right fun h => hfresh h.2.1
    rw [List.append_cons] at hs
    have hkeys' : ((decimal v, ()) :: es).map Prod.fst = ((done ++ [v]).map decimal).reverse := by
      rw [List.map_cons, hkeys]
      simp
    rw [List.length_cons] at hn
    obtain ⟨d'', es'', hrest, hd'', hkeys''⟩ := ih (done ++ [v]) hs hd' hkeys' (n := n) (by omega)
      (by rw [List.length_append, List.length_append, List.length_singleton]; omega)
      (by rwa [List.append_cons] at hmin)
    refine ⟨d'', es'', ?_, hd'', by rw [hkeys'', List.append_assoc]; rfl⟩
    rw [List.length_append, List.length_singleton] at hrest
    simp only [convertLoop, hget, Option.bind_some, htext, hadd, if_true, hrest]

theorem convert_spec {is : Intset} {vals : List ℤ} (hs : Redis.Holds is vals)
    (hfit : vals.length ≤ 2 ^ 59) (hmin : LLONG_MIN ∉ vals) :
    ∃ d es, convert cfg amb is = some d ∧ d.Holds cfg.hash es ∧
      (∀ m, m ∈ es.map Prod.fst ↔ ∃ v ∈ vals, decimal v = m) ∧ es.length = vals.length := by
  obtain ⟨d₀, ok, hexpand, hd₀⟩ := (Dict.holds_create (V := Unit) cfg.hash).expand is.length
    (by rw [hs.length]; omega)
  obtain ⟨d, es, hloop, hd, hkeys⟩ := convertLoop_spec amb vals [] hs hd₀ rfl
    (Nat.lt_succ_of_le (Nat.le_of_eq hs.length.symm)) hfit hmin
  refine ⟨d, es, ?_, hd, fun m => ?_, ?_⟩
  · rw [convert, hexpand, Option.bind_some]
    exact hloop
  · rw [hkeys, List.mem_reverse, List.nil_append, List.mem_map]
  · rw [← List.length_map Prod.fst, hkeys, List.length_reverse, List.length_map, List.nil_append]

theorem nodup_texts {is : Intset} {vals : List ℤ} (hs : Redis.Holds is vals) :
    (vals.map decimal).Nodup := by
  refine List.Nodup.map_on ?_ (hs.sorted.imp fun hlt => hlt.ne)
  exact fun v hv w hw heq => decimal_inj (hs.longLong hv) (hs.longLong hw) heq

theorem card_intset {is : Intset} {vals : List ℤ} (hs : Redis.Holds is vals)
    (hmem : ∀ m, m ∈ S ↔ ∃ v ∈ vals, decimal v = m) : vals.length = S.card := by
  have hset : (vals.map decimal).toFinset = S := by
    ext m
    rw [List.mem_toFinset, List.mem_map, hmem]
  rw [← hset, List.toFinset_card_of_nodup (nodup_texts hs), List.length_map]

theorem Represents.card (h : Represents cfg o S) : o.size = S.card := by
  cases h with
  | @ht d es _ holds mem =>
    have hset : (es.map Prod.fst).toFinset = S := by
      ext m
      rw [List.mem_toFinset, mem]
    rw [← hset, List.toFinset_card_of_nodup holds.distinct, List.length_map]
    exact holds.size
  | intset holds few mem => exact holds.length.trans (card_intset holds mem)

/-- Adding an element, whichever encoding the set has and gets. -/
theorem Represents.add (h : Represents cfg o S) (hlimit : (cfg.setMaxIntsetEntries + 1) * 8 < 2 ^ 32)
    (value : Str) (hfit : (insert value S).card ≤ 2 ^ 59) (hmin : decimal LLONG_MIN ∉ insert value S) :
    ∃ o', o.add cfg amb value = some (o', decide (value ∉ S)) ∧
      Represents cfg o' (insert value S) := by
  have hcard := h.card
  have hsub : S.card ≤ (insert value S).card := Finset.card_le_card (Finset.subset_insert value S)
  cases h with
  | @ht d es _ holds mem =>
    have hsize : es.length = S.card := holds.size.symm.trans hcard
    obtain ⟨d', ok, es', hadd, hd', hcases⟩ := holds.add amb.canResize value () (by omega)
    rw [SetObj.add, hadd, Option.map_some]
    rcases hcases with ⟨rfl, hnot, rfl⟩ | ⟨rfl, hin, rfl⟩
    · rw [decide_eq_true (mt (mem value).mp hnot)]
      refine ⟨.ht d', rfl, .ht hd' fun m => ?_⟩
      rw [Finset.mem_insert, mem, List.map_cons, List.mem_cons]
    · have hin' := (mem value).mpr hin
      rw [decide_eq_false (not_not.mpr hin'), Finset.insert_eq_of_mem hin']
      exact ⟨.ht d', rfl, .ht hd' mem⟩
  | @intset is vals _ holds few mem =>
    have hsize : vals.length = S.card := holds.length.symm.trans hcard
    cases hval : string2ll value with
    | none =>
      have hnot := not_mem_intset holds mem hval
      have hmin' : LLONG_MIN ∉ vals :=
        fun hin => hmin (Finset.mem_insert_of_mem ((mem _).mpr ⟨LLONG_MIN, hin, rfl⟩))
      obtain ⟨d, es, hconvert, hd, hkeys, hlen⟩ := convert_spec amb holds (by omega) hmin'
      obtain ⟨d', ok, es', hadd, hd', hcases⟩ := hd.add amb.canResize value () (by omega)
      have hfresh : value ∉ es.map Prod.fst := by rwa [hkeys, ← mem]
      obtain ⟨rfl, -, rfl⟩ := hcases.resolve_right fun h => hfresh h.2.1
      refine ⟨.ht d', ?_, .ht hd' fun m => ?_⟩
      · simp only [SetObj.add, hval, hconvert, Option.bind_some, hadd, if_true, decide_eq_true hnot]
      · rw [Finset.mem_insert, mem, List.map_cons, List.mem_cons, hkeys]
    | some llval =>
      obtain ⟨hlong, rfl⟩ := (string2ll_iff value llval).mp hval
      obtain ⟨is', vals', hadd, hs', hvals'⟩ := holds.add hlong (fun _ => by omega) amb.junk
      have hflag : decide (decimal llval ∉ S) = decide (llval ∉ vals) :=
        decide_eq_decide.mpr (not_congr (mem_intset holds mem hval))
      have hmem' : ∀ m, m ∈ insert (decimal llval) S ↔ ∃ v ∈ vals', decimal v = m := by
        intro m
        rw [Finset.mem_insert, mem]
        constructor
        · rintro (rfl | ⟨v, hv, rfl⟩)
          · exact ⟨llval, (hvals' _).mpr (Or.inl rfl), rfl⟩
          · exact ⟨v, (hvals' _).mpr (Or.inr hv), rfl⟩
        · rintro ⟨v, hv, rfl⟩
          rcases (hvals' v).mp hv with rfl | hv
          · exact Or.inl rfl
          · exact Or.inr ⟨v, hv, rfl⟩
      have hcard' := card_intset hs' hmem'
      by_cases hmany : decide (llval ∉ vals) = true ∧ is'.length > cfg.setMaxIntsetEntries
      · have hmin' : LLONG_MIN ∉ vals' := fun hin => hmin ((hmem' _).mpr ⟨LLONG_MIN, hin, rfl⟩)
        obtain ⟨d, es, hconvert, hd, hkeys, hlen⟩ := convert_spec amb hs' (by omega) hmin'
        refine ⟨.ht d, ?_, .ht hd fun m => ?_⟩
        · simp only [SetObj.add, hval, hadd, Option.bind_some, if_pos hmany, hconvert, Option.map_some]
          rw [hflag, hmany.1]
        · rw [hmem', hkeys]
      · refine ⟨.intset is', ?_, .intset hs' ?_ hmem'⟩
        · simp only [SetObj.add, hval, hadd, Option.bind_some, if_neg hmany, hflag]
        · by_cases hin : llval ∈ vals
          · rw [hcard', Finset.insert_eq_of_mem ((mem_intset holds mem hval).mpr hin), ← hsize]
            exact few
          · rw [← hs'.length]
            exact Nat.le_of_not_lt fun hgt => hmany ⟨decide_eq_true hin, hgt⟩

theorem Represents.remove (h : Represents cfg o S) (hlimit : (cfg.setMaxIntsetEntries + 1) * 8 < 2 ^ 32)
    (value : Str) :
    ∃ o', o.remove cfg amb value = some (o', decide (value ∈ S)) ∧
      Represents cfg o' (S.erase value) := by
  cases h with
  | @ht d es _ holds mem =>
    obtain ⟨d', found, hdelete, hfound, hd'⟩ := holds.delete value
    have hflag : decide (value ∈ S) = found := by
      rw [← mem] at hfound
      exact (Bool.eq_iff_iff.mpr (by rw [hfound, decide_eq_true_eq])).symm
    have hmem' : ∀ m, m ∈ S.erase value ↔ m ∈ (es.filter fun e => e.1 ≠ value).map Prod.fst := by
      intro m
      rw [Finset.mem_erase, mem]
      simp only [List.mem_map, List.mem_filter, decide_eq_true_eq]
      constructor
      · rintro ⟨hne, e, he, rfl⟩
        exact ⟨e, ⟨he, hne⟩, rfl⟩
      · rintro ⟨e, ⟨he, hne⟩, rfl⟩
        exact ⟨hne, e, he, rfl⟩
    rw [hflag, SetObj.remove, hdelete, Option.bind_some]
    dsimp only
    split
    · obtain ⟨d'', ok, hresize, hd''⟩ := hd'.resize amb.canResize
      rw [hresize, Option.map_some]
      exact ⟨.ht d'', rfl, .ht hd'' hmem'⟩
    · exact ⟨.ht d', rfl, .ht hd' hmem'⟩
  | @intset is vals _ holds few mem =>
    cases hval : string2ll value with
    | none =>
      have hnot := not_mem_intset holds mem hval
      rw [decide_eq_false hnot, Finset.erase_eq_of_notMem hnot]
      exact ⟨.intset is, by simp only [SetObj.remove, hval], .intset holds few mem⟩
    | some llval =>
      have hlong := ((string2ll_iff value llval).mp hval).1
      obtain ⟨is', vals', hremove, hs', hvals'⟩ := holds.remove hlong (by omega) amb.junk
      have hflag : decide (value ∈ S) = decide (llval ∈ vals) :=
        decide_eq_decide.mpr (mem_intset holds mem hval)
      have hmem' : ∀ m, m ∈ S.erase value ↔ ∃ v ∈ vals', decimal v = m := by
        obtain ⟨-, rfl⟩ := (string2ll_iff value llval).mp hval
        intro m
        rw [Finset.mem_erase, mem]
        constructor
        · rintro ⟨hne, v, hv, rfl⟩
          exact ⟨v, (hvals' v).mpr ⟨fun heq => hne (heq ▸ rfl), hv⟩, rfl⟩
        · rintro ⟨v, hv, rfl⟩
          obtain ⟨hne, hv⟩ := (hvals' v).mp hv
          exact ⟨fun heq => hne (decimal_inj (holds.longLong hv) hlong heq), v, hv, rfl⟩
      refine ⟨.intset is', ?_, .intset hs' ?_ hmem'⟩
      · simp only [SetObj.remove, hval, hremove, Option.map_some, hflag]
      · rw [card_intset hs' hmem']
        exact Finset.card_erase_le.trans (card_intset holds mem ▸ few)

theorem elementsFrom_spec {is : Intset} (rest done : List ℤ) (hs : Redis.Holds is (done ++ rest))
    {n : ℕ} (hn : rest.length < n) : elementsFrom is n done.length = some (rest.map decimal) := by
  induction rest generalizing done n with
  | nil =>
    obtain ⟨n, rfl⟩ := Nat.exists_eq_add_one.mpr (Nat.zero_lt_of_lt hn)
    rw [elementsFrom, hs.lists, List.append_nil, List.getElem?_eq_none (Nat.le_refl _)]
    rfl
  | cons v rest ih =>
    obtain ⟨n, rfl⟩ := Nat.exists_eq_add_one.mpr (Nat.zero_lt_of_lt hn)
    have hget : is.getAt done.length = some (some v) := by
      rw [hs.lists, List.getElem?_append_right (Nat.le_refl _), Nat.sub_self, List.getElem?_cons_zero]
    have hlong : IsLongLong v := hs.longLong (by simp)
    rw [List.append_cons] at hs
    rw [List.length_cons] at hn
    have hrest := ih (done ++ [v]) hs (n := n) (by omega)
    rw [List.length_append, List.length_singleton] at hrest
    simp only [elementsFrom, hget, Option.bind_some, bulkLongLong_eq hlong, hrest, Option.map_some,
      List.map_cons]

/-- An iteration gives every element once. -/
theorem Represents.elements (h : Represents cfg o S) :
    ∃ texts, o.elements = some (o, texts) ∧ texts.Nodup ∧ ∀ m, m ∈ texts ↔ m ∈ S := by
  cases h with
  | @ht d es _ holds mem =>
    obtain ⟨listed, hiterate, hperm⟩ := holds.iterate false
    have hkeys := hperm.map Prod.fst
    refine ⟨listed.map Prod.fst, ?_, hkeys.nodup_iff.mpr holds.distinct, fun m => ?_⟩
    · rw [SetObj.elements, hiterate, Option.map_some]
    · rw [hkeys.mem_iff, mem]
  | @intset is vals _ holds few mem =>
    refine ⟨vals.map decimal, ?_, nodup_texts holds, fun m => ?_⟩
    · have hlist := elementsFrom_spec vals [] holds (n := is.length + 1)
        (Nat.lt_succ_of_le (Nat.le_of_eq holds.length.symm))
      rw [SetObj.elements, show elementsFrom is (is.length + 1) 0 = _ from hlist, Option.map_some]
    · rw [List.mem_map, mem]

end SetObj

end NodeServer.Redis

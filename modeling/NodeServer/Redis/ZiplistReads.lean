import NodeServer.Redis.ZiplistDeletes

/-! # Reading a ziplist -/

namespace NodeServer.Redis.Ziplist

open Bytes

section

variable {pre L : Buf} {off count : ℤ} {e : Entry} {prev p : ℕ}

/-! ### One entry -/

theorem isStr_encodingOf {s : Str} (h : zipTryEncoding s = none) : isStr (encodingOf s) = true := by
  simp only [encodingOf, h]
  split_ifs <;> decide

/- The content of an entry, cut out of the block. -/
theorem block_payload (e : Entry) :
    block (pre ++ e.bytes prev ++ L) off count =
      (headerBytes (11 + (pre ++ e.bytes prev ++ L).length) (10 + off) count ++ pre ++ e.prevField prev ++
        header e.text) ++ payload e.text ++ (L ++ [endByte]) := by
  simp only [block, Entry.bytes, List.append_assoc]

theorem load_payload (hp : p = 10 + pre.length) :
    load (block (pre ++ e.bytes prev ++ L) off count) (p + (e.prevSize + (header e.text).length))
      (payload e.text).length = some (payload e.text) := by
  rw [block_payload]
  refine load_append ?_ rfl
  simp only [List.length_append, headerBytes_length, prevField_length]
  omega

theorem loadInteger_payload {v : ℤ} {encoding : ℕ} (hkeeps : KeepsInteger v encoding (payload e.text))
    (hp : p = 10 + pre.length) :
    loadInteger (block (pre ++ e.bytes prev ++ L) off count) (p + (e.prevSize + (header e.text).length))
      encoding = some v := by
  rw [block_payload]
  apply hkeeps.loads
  simp only [List.length_append, headerBytes_length, prevField_length]
  omega

/-- What is read from an entry is its text. -/
theorem get_spec (hok : e.Ok prev) (htext : ByteText e.text) (hp : p = 10 + pre.length) :
    ∃ v, get (block (pre ++ e.bytes prev ++ L) off count) p = some (some v) ∧ v.text = some e.text := by
  obtain ⟨byte, hbyte, hne⟩ := @byteAt_block pre L off count e prev p hok hp
  unfold get
  simp only [hbyte, Option.bind_eq_bind, Option.bind_some, if_neg hne, zipEntry_block hok hp]
  have hencoded : (e.zlentry prev).encoding = encodingOf e.text := rfl
  have hheader : (e.zlentry prev).headersize = e.prevSize + (header e.text).length := rfl
  have hlen : (e.zlentry prev).len = (payload e.text).length := rfl
  rw [hencoded, hheader, hlen]
  cases h : zipTryEncoding e.text with
  | none =>
    obtain ⟨-, -, hpayload⟩ := content_str h
    refine ⟨.str (payload e.text), ?_, ?_⟩
    · rw [if_pos (isStr_encodingOf h), load_payload hp, Option.map_some]
    · rw [Value.text, hpayload, textOf_bytesOf htext]
  | some r =>
    obtain ⟨v, encoding⟩ := r
    obtain ⟨-, -, hkeeps⟩ := content_int h
    obtain ⟨hv, hdecimal⟩ := (string2ll_iff _ v).mp (zipTryEncoding_some h).1
    have hencoding : encodingOf e.text = encoding := by simp only [encodingOf, h]
    refine ⟨.int v, ?_, ?_⟩
    · rw [hencoding, if_neg (by rw [hkeeps.notStr]; exact Bool.false_ne_true), loadInteger_payload hkeeps hp,
        Option.map_some]
    · rw [Value.text, bulkLongLong_eq hv, hdecimal]

/-- The entry behind an entry. -/
theorem next_spec {more : List Entry} (hok : e.Ok prev) (hmore : Chained e.rawlen more)
    (hp : p = 10 + pre.length) :
    next (block (pre ++ e.bytes prev ++ layout e.rawlen more) off count) p =
      some (if more = [] then none else some (p + e.rawlen)) := by
  obtain ⟨byte, hbyte, hne⟩ := @byteAt_block pre (layout e.rawlen more) off count e prev p hok hp
  obtain ⟨after, hafter, hlast⟩ := @byteAt_after pre off count prev more e.rawlen (p + e.rawlen) e hmore
    (by rw [hp, Nat.add_assoc])
  unfold next
  simp only [hbyte, Option.bind_eq_bind, Option.bind_some, if_neg hne, rawEntryLength_block hok hp, hafter, hlast]
  split <;> rfl

end

/-! ### The positions of the entries -/

/- Where the entry at an index starts; there is none behind the last one. -/
def position (es : List Entry) (i : ℕ) : Option ℕ :=
  if i < es.length then some (10 + size (es.take i)) else none

section

variable {zl : Buf} {es : List Entry} {i : ℕ}

theorem position_of_lt (hi : i < es.length) : position es i = some (10 + size (es.take i)) := if_pos hi

theorem position_of_le (hi : es.length ≤ i) : position es i = none := if_neg (Nat.not_lt.mpr hi)

theorem size_take_succ (hi : i < es.length) :
    size (es.take (i + 1)) = size (es.take i) + (es.get ⟨i, hi⟩).rawlen := by
  rw [List.take_succ_eq_append_getElem hi, size_append, size_cons]
  rfl

theorem lastLen_take_succ (hi : i < es.length) :
    lastLen 0 (es.take (i + 1)) = (es.get ⟨i, hi⟩).rawlen := by
  rw [List.take_succ_eq_append_getElem hi, lastLen_append]
  rfl

theorem lastOffset_take (hi : i + 1 = es.length) : lastOffset es = size (es.take i) := by
  have hlast := lastOffset_eq es
  have hlt : i < es.length := by omega
  have hall : es.take (i + 1) = es := List.take_of_length_le (Nat.le_of_eq hi.symm)
  have hsize := size_take_succ hlt
  have hlen := lastLen_take_succ hlt
  rw [hall] at hsize hlen
  omega

/-- The block, cut around the entry at an index. -/
theorem Holds.entry_at (h : Holds zl es) (hi : i < es.length) :
    layout 0 es = layout 0 (es.take i) ++ (es.get ⟨i, hi⟩).bytes (lastLen 0 (es.take i)) ++
        layout (es.get ⟨i, hi⟩).rawlen (es.drop (i + 1)) ∧
      (es.get ⟨i, hi⟩).Ok (lastLen 0 (es.take i)) ∧ Chained (es.get ⟨i, hi⟩).rawlen (es.drop (i + 1)) := by
  have hcut : es = es.take i ++ es.get ⟨i, hi⟩ :: es.drop (i + 1) := by
    rw [List.get_eq_getElem, List.cons_getElem_drop_succ, List.take_append_drop]
  have hchained := h.chained
  rw [hcut] at hchained
  refine ⟨?_, ((chained_append 0 _ _).mp hchained).2⟩
  conv_lhs => rw [hcut]
  rw [layout_append, layout_cons, List.append_assoc]

theorem Holds.byte_at (h : Holds zl es) (hi : i < es.length) :
    ∃ first, byteAt zl (10 + size (es.take i)) = some first ∧ first ≠ ZIP_END := by
  obtain ⟨hlayout, hok, -⟩ := h.entry_at hi
  rw [h.shape, hlayout]
  exact byteAt_block hok (by rw [layout_length])

theorem Holds.byte_end (h : Holds zl es) : byteAt zl (10 + size es) = some ZIP_END := by
  rw [h.shape]
  exact byteAt_end (by rw [layout_length])

theorem Holds.rawlen_at (h : Holds zl es) (hi : i < es.length) :
    rawEntryLength zl (10 + size (es.take i)) = some (es.get ⟨i, hi⟩).rawlen := by
  obtain ⟨hlayout, hok, -⟩ := h.entry_at hi
  rw [h.shape, hlayout]
  exact rawEntryLength_block hok (by rw [layout_length])

theorem Holds.prevlen_at (h : Holds zl es) (hi : i < es.length) :
    ∃ prevlensize, decodePrevlen zl (10 + size (es.take i)) =
      some (prevlensize, lastLen 0 (es.take i)) := by
  obtain ⟨hlayout, hok, -⟩ := h.entry_at hi
  refine ⟨(es.get ⟨i, hi⟩).prevSize, ?_⟩
  rw [h.shape, hlayout]
  exact decodePrevlen_block hok (by rw [layout_length])

theorem Holds.text_at (h : Holds zl es) (htexts : ∀ e ∈ es, ByteText e.text) (hi : i < es.length) :
    textAt zl (10 + size (es.take i)) = some (es.get ⟨i, hi⟩).text := by
  obtain ⟨hlayout, hok, -⟩ := h.entry_at hi
  obtain ⟨v, hget, hv⟩ := @get_spec (layout 0 (es.take i))
    (layout (es.get ⟨i, hi⟩).rawlen (es.drop (i + 1))) (lastOffset es) es.length _ _
    (10 + size (es.take i)) hok (htexts _ (List.get_mem es ⟨i, hi⟩)) (by rw [layout_length])
  rw [textAt, h.shape, hlayout, hget, Option.bind_some, Option.bind_some, hv]

theorem Holds.tail (h : Holds zl es) : tailOffset zl = some (10 + lastOffset es) := by
  have hle := lastOffset_le es
  have hsize := h.size_lt
  rw [h.shape, tailOffset_block (by omega) (by omega)]
  congr 1

/-! ### From one entry to another -/

theorem Holds.next_at (h : Holds zl es) (hi : i < es.length) :
    next zl (10 + size (es.take i)) = some (position es (i + 1)) := by
  obtain ⟨hlayout, hok, hmore⟩ := h.entry_at hi
  rw [h.shape, hlayout, next_spec hok hmore (by rw [layout_length]), Nat.add_assoc, ← size_take_succ hi]
  congr 1
  by_cases hnext : i + 1 < es.length
  · rw [position_of_lt hnext, if_neg (by rw [List.drop_eq_nil_iff]; omega)]
  · rw [position_of_le (Nat.not_lt.mp hnext), if_pos (by rw [List.drop_eq_nil_iff]; omega)]

/-- An entry keeps the length of the one before it, so that the way back is the way there. -/
theorem Holds.back_at (h : Holds zl es) (hi : i + 1 < es.length) :
    ∃ prevlensize prevlen, decodePrevlen zl (10 + size (es.take (i + 1))) = some (prevlensize, prevlen) ∧
      prevlen ≠ 0 ∧ 10 + size (es.take (i + 1)) = 10 + size (es.take i) + prevlen := by
  obtain ⟨prevlensize, hprevlen⟩ := h.prevlen_at hi
  have hlt : i < es.length := by omega
  have hpos := rawlen_pos (es.get ⟨i, hlt⟩)
  refine ⟨prevlensize, _, hprevlen, ?_, ?_⟩
  · rw [lastLen_take_succ hlt]
    omega
  · rw [lastLen_take_succ hlt, size_take_succ hlt, Nat.add_assoc]

theorem Holds.prev_at (h : Holds zl es) (hi : i + 1 < es.length) :
    prev zl (10 + size (es.take (i + 1))) = some (position es i) := by
  obtain ⟨first, hfirst, hne⟩ := h.byte_at hi
  obtain ⟨prevlensize, prevlen, hprevlen, hpos, hback⟩ := h.back_at hi
  unfold prev
  simp only [hfirst, Option.bind_eq_bind, Option.bind_some, if_neg hne, hprevlen]
  rw [if_neg (by unfold ZIPLIST_HEADER_SIZE; omega), if_neg (by omega), position_of_lt (by omega)]
  congr 2
  omega

theorem Holds.prev_head (h : Holds zl es) (hne : es ≠ []) : prev zl 10 = some none := by
  obtain ⟨first, hfirst, hend⟩ := h.byte_at (List.length_pos_iff.mpr hne)
  unfold prev
  rw [show byteAt zl 10 = some first from hfirst, Option.bind_eq_bind, Option.bind_some, if_neg hend]
  exact if_pos rfl

/-! ### An index from the head or from the tail -/

/- The place of an index that counts from the head, or from the tail where it is negative. -/
def place (n : ℕ) : ℤ → Option ℕ
  | .ofNat i => if i < n then some i else none
  | .negSucc i => if i < n then some (n - 1 - i) else none

theorem place_lt {n j : ℕ} {k : ℤ} (h : place n k = some j) : j < n := by
  cases k with
  | ofNat i =>
    obtain ⟨hi, heq⟩ := Option.ite_none_right_eq_some.mp h
    cases heq
    exact hi
  | negSucc i =>
    obtain ⟨hi, heq⟩ := Option.ite_none_right_eq_some.mp h
    cases heq
    omega

theorem Holds.indexForward (h : Holds zl es) (i : ℕ) : indexForward zl i = some (position es i) := by
  have hskip := @skipEntries_spec (lastOffset es) es.length i [] 0 10 es h.chained rfl
  rw [List.nil_append, ← h.shape] at hskip
  rw [Ziplist.indexForward, ZIPLIST_HEADER_SIZE, hskip, Option.bind_some]
  dsimp only
  by_cases hi : i < es.length
  · obtain ⟨first, hfirst, hne⟩ := h.byte_at hi
    rw [hfirst, Option.map_some, if_neg hne, position_of_lt hi]
  · rw [List.take_of_length_le (Nat.not_lt.mp hi), h.byte_end, Option.map_some, if_pos rfl,
      position_of_le (Nat.not_lt.mp hi)]

/-- So many entries back from one of them, or to the first one. -/
theorem Holds.skipBack (h : Holds zl es) (n : ℕ) : ∀ {i : ℕ}, i < es.length →
    skipBack zl n (10 + size (es.take i)) = some (10 + size (es.take (i - n)), n - i) := by
  induction n with
  | zero =>
    intro i hi
    obtain ⟨prevlensize, hprevlen⟩ := h.prevlen_at hi
    rw [Ziplist.skipBack, hprevlen, Option.map_some, Nat.sub_zero, Nat.zero_sub]
  | succ n ih =>
    intro i hi
    cases i with
    | zero =>
      obtain ⟨prevlensize, hprevlen⟩ := h.prevlen_at hi
      rw [Ziplist.skipBack, hprevlen, Option.bind_some, Nat.zero_sub, Nat.sub_zero]
      exact if_pos rfl
    | succ i =>
      obtain ⟨prevlensize, prevlen, hprevlen, hpos, hback⟩ := h.back_at hi
      have hplace : 10 + size (es.take (i + 1)) - prevlen = 10 + size (es.take i) := by omega
      rw [Ziplist.skipBack, hprevlen, Option.bind_some]
      dsimp only
      rw [if_neg hpos, if_neg (by omega), hplace, ih (by omega), Nat.add_sub_add_right, Nat.add_sub_add_right]

theorem Holds.indexBackward (h : Holds zl es) {i : ℕ} (hint : i < 2 ^ 31 - 1) :
    indexBackward zl i = some (if i < es.length then position es (es.length - 1 - i) else none) := by
  rw [Ziplist.indexBackward, if_neg (Nat.not_le.mpr hint), h.tail, Option.bind_some]
  cases hnil : es with
  | nil =>
    subst hnil
    have hend := h.byte_end
    rw [size_nil] at hend
    rw [show byteAt zl (10 + lastOffset []) = some ZIP_END from hend, Option.bind_some, if_pos rfl]
    rfl
  | cons e more =>
    rw [← hnil]
    have hlast : es.length - 1 + 1 = es.length := by rw [hnil, List.length_cons, Nat.add_sub_cancel]
    have hlt : es.length - 1 < es.length := by omega
    rw [lastOffset_take hlast]
    obtain ⟨last, hbyte, hne⟩ := h.byte_at hlt
    rw [hbyte, Option.bind_some, if_neg hne, h.skipBack i hlt, Option.bind_some]
    dsimp only
    have hback : es.length - 1 - i < es.length := by omega
    obtain ⟨first, hfirst, hne'⟩ := h.byte_at hback
    rw [hfirst, Option.map_some]
    by_cases hi : i < es.length
    · rw [if_neg (by omega), if_pos hi, position_of_lt hback]
    · rw [if_pos (by omega), if_neg hi]

theorem Holds.index (h : Holds zl es) {i : ℤ} (hint : -2 ^ 31 < i) :
    index zl i = some ((place es.length i).bind (position es)) := by
  cases i with
  | ofNat i =>
    rw [Ziplist.index, h.indexForward, place]
    by_cases hi : i < es.length
    · rw [if_pos hi, Option.bind_some]
    · rw [if_neg hi, position_of_le (Nat.not_lt.mp hi), Option.bind_none]
  | negSucc i =>
    rw [Ziplist.index, h.indexBackward (by omega), place]
    by_cases hi : i < es.length
    · rw [if_pos hi, if_pos hi, Option.bind_some]
    · rw [if_neg hi, if_neg hi, Option.bind_none]

/-! ### All entries -/

section

variable {α : Type} {read : ℕ → Option α} {vals : List α}

/-- A walk towards the tail reads what is left of the list. -/
theorem Holds.walk_next (h : Holds zl es) (hlen : vals.length = es.length)
    (hread : ∀ i < es.length, read (10 + size (es.take i)) = vals[i]?) (fuel : ℕ) :
    ∀ {i : ℕ}, es.length - i ≤ fuel →
      walk read (next zl) fuel (position es i) = some (vals.drop i) := by
  induction fuel with
  | zero =>
    intro i hfuel
    rw [position_of_le (by omega), List.drop_of_length_le (by omega)]
    unfold walk
    rfl
  | succ fuel ih =>
    intro i hfuel
    by_cases hi : i < es.length
    · have hget : vals[i]? = some (vals.get ⟨i, hlen.symm ▸ hi⟩) :=
        List.getElem?_eq_getElem (hlen.symm ▸ hi)
      rw [position_of_lt hi, walk, hread i hi, hget, h.next_at hi]
      simp only [Option.bind_eq_bind, Option.bind_some]
      rw [ih (by omega), Option.bind_some, List.get_eq_getElem, List.cons_getElem_drop_succ]
    · rw [position_of_le (by omega), List.drop_of_length_le (by omega)]
      unfold walk
      rfl

/-- A walk towards the head reads what lies before. -/
theorem Holds.walk_prev (h : Holds zl es) (hlen : vals.length = es.length)
    (hread : ∀ i < es.length, read (10 + size (es.take i)) = vals[i]?) (fuel : ℕ) :
    ∀ {i : ℕ}, i < es.length → i < fuel →
      walk read (prev zl) fuel (position es i) = some (vals.take (i + 1)).reverse := by
  induction fuel with
  | zero => exact fun _ hfuel => absurd hfuel (Nat.not_lt_zero _)
  | succ fuel ih =>
    intro i hi hfuel
    have hlt : i < vals.length := hlen.symm ▸ hi
    have hget : vals[i]? = some (vals.get ⟨i, hlt⟩) := List.getElem?_eq_getElem hlt
    rw [position_of_lt hi, walk, hread i hi, hget, List.take_succ_eq_append_getElem hlt, List.reverse_append,
      List.reverse_singleton, List.singleton_append, Option.bind_eq_bind, Option.bind_some, List.get_eq_getElem]
    cases i with
    | zero =>
      rw [List.take_zero, size_nil, h.prev_head (List.length_pos_iff.mp hi), Option.bind_eq_bind, Option.bind_some,
        List.take_zero, List.reverse_nil]
      unfold walk
      rfl
    | succ i =>
      rw [h.prev_at hi, Option.bind_eq_bind, Option.bind_some, ih (by omega) (by omega)]
      rfl

/-- There is fuel for every entry. -/
theorem Holds.length_le (h : Holds zl es) : es.length ≤ zl.length := by
  have hfew := length_le_size es
  rw [h.shape, block_length, layout_length]
  omega

/-- Going through the whole list. -/
theorem Holds.walk_all (h : Holds zl es) (hlen : vals.length = es.length)
    (hread : ∀ i < es.length, read (10 + size (es.take i)) = vals[i]?) :
    (Ziplist.index zl 0).bind (walk read (next zl) zl.length) = some vals := by
  have hfuel := h.length_le
  rw [show Ziplist.index zl 0 = _ from h.indexForward 0, Option.bind_some,
    h.walk_next hlen hread zl.length (by omega), List.drop_zero]

end

theorem Holds.read_texts (h : Holds zl es) (htexts : ∀ e ∈ es, ByteText e.text) :
    ∀ i < es.length, textAt zl (10 + size (es.take i)) = (es.map Entry.text)[i]? := by
  intro i hi
  rw [h.text_at htexts hi, List.getElem?_map, List.getElem?_eq_getElem hi]
  rfl

/-- Walking through the list gives the texts in their order. -/
theorem Holds.texts (h : Holds zl es) (htexts : ∀ e ∈ es, ByteText e.text) :
    texts zl = some (es.map Entry.text) :=
  h.walk_all (List.length_map _) (h.read_texts htexts)

/-- Walking back from the tail gives them in the other order. -/
theorem Holds.textsBack (h : Holds zl es) (htexts : ∀ e ∈ es, ByteText e.text) :
    textsBack zl = some (es.map Entry.text).reverse := by
  have hindex : Ziplist.index zl (-1) = _ := h.indexBackward (by decide : 0 < 2 ^ 31 - 1)
  rw [Ziplist.textsBack, hindex, Option.bind_some, Nat.sub_zero]
  by_cases hpos : 0 < es.length
  · have hfuel := h.length_le
    rw [if_pos hpos, h.walk_prev (List.length_map _) (h.read_texts htexts) zl.length (by omega) (by omega),
      Nat.sub_add_cancel hpos, List.take_of_length_le (by rw [List.length_map])]
  · rw [if_neg hpos, List.length_eq_zero_iff.mp (Nat.eq_zero_of_not_pos hpos)]
    unfold walk
    rfl

theorem Holds.rawlens (h : Holds zl es) : rawlens zl = some (es.map Entry.rawlen) := by
  refine h.walk_all (List.length_map _) fun i hi => ?_
  rw [h.rawlen_at hi, List.getElem?_map, List.getElem?_eq_getElem hi]
  rfl

/-- The lengths that the entries keep are those of the entries before them. -/
theorem Holds.prevlens (h : Holds zl es) :
    prevlens zl = some ((0 :: es.map Entry.rawlen).take es.length) := by
  refine h.walk_all (by simp) fun i hi => ?_
  obtain ⟨prevlensize, hprevlen⟩ := h.prevlen_at hi
  rw [hprevlen, Option.map_some, List.getElem?_take_of_lt hi]
  cases i with
  | zero => rfl
  | succ i =>
    have hlt : i < es.length := by omega
    rw [List.getElem?_cons_succ, List.getElem?_map, List.getElem?_eq_getElem hlt, lastLen_take_succ hlt]
    rfl

/-- The tail offset is where all entries but the last end. -/
theorem Holds.tail_sum (h : Holds zl es) :
    tailOffset zl = some (10 + ((es.map Entry.rawlen).dropLast).sum) := by
  rw [h.tail]
  rcases List.eq_nil_or_concat' es with rfl | ⟨init, last, rfl⟩
  · rfl
  · rw [lastOffset_append init (List.cons_ne_nil _ _), List.map_append, List.map_singleton, List.dropLast_concat]
    rfl

theorem Holds.len (h : Holds zl es) : len zl = some (zl, es.length) := by
  have hfew := h.few
  unfold Ziplist.len
  rw [h.shape, length_block (by omega) (by unfold UINT16_MAX at hfew; omega), Option.bind_eq_bind,
    Option.bind_some, Int.toNat_natCast, if_pos hfew]

end

/-! ### Searching -/

/- Where a search that leaves out `skip` entries after each comparison finds the text. -/
def findText (skip : ℕ) (s : Str) : ℕ → List Str → Option ℕ
  | _, [] => none
  | 0, t :: ts => if t = s then some 0 else (findText skip s skip ts).map (· + 1)
  | skipcnt + 1, _ :: ts => (findText skip s skipcnt ts).map (· + 1)

section

variable {pre L : Buf} {off count : ℤ} {e : Entry} {prev p : ℕ} {s : Str} {vll : Option (Option ℤ)}

/- What the search has found out about the text it looks for. -/
def Known (s : Str) (vll : Option (Option ℤ)) : Prop :=
  ∀ v, vll = some v → v = (zipTryEncoding s).map Prod.fst

theorem Known.getD (h : Known s vll) :
    vll.getD ((zipTryEncoding s).map Prod.fst) = (zipTryEncoding s).map Prod.fst := by
  cases vll with
  | none => rfl
  | some v => exact h v rfl

/- A text that is read as an integer is short enough to be tried. -/
theorem zipTryEncoding_decimal {v : ℤ} (hv : IsLongLong v) :
    (zipTryEncoding (decimal v)).map Prod.fst = some v := by
  have hread := (string2ll_iff (decimal v) v).mpr ⟨hv, rfl⟩
  have hshort := decimal_short hv
  have hpos : (decimal v).length ≠ 0 := by
    intro hzero
    rw [List.eq_nil_of_length_eq_zero hzero] at hread
    cases hread
  unfold zipTryEncoding
  rw [if_neg (by omega), hread]
  rfl

/-- An entry is compared with a text: with an integer entry as integers, with the others byte by
byte. -/
theorem matchesEntry_spec (htext : ByteText e.text) (hs : ByteText s) (hknown : Known s vll)
    (hp : p = 10 + pre.length) :
    ∃ vll', matchesEntry (block (pre ++ e.bytes prev ++ L) off count)
        (p + (e.prevSize + (header e.text).length)) (encodingOf e.text) (payload e.text).length s vll =
      some (decide (e.text = s), vll') ∧ Known s vll' := by
  unfold matchesEntry
  cases h : zipTryEncoding e.text with
  | none =>
    obtain ⟨-, -, hpayload⟩ := content_str h
    refine ⟨vll, ?_, hknown⟩
    rw [if_pos (isStr_encodingOf h), sameText]
    by_cases hlen : (payload e.text).length = s.length
    · rw [if_pos hlen, load_payload hp, Option.map_some, Option.map_some, hpayload]
      congr 3
      exact propext ⟨bytesOf_inj htext hs, fun heq => by rw [heq]⟩
    · have hne : e.text ≠ s := by
        intro heq
        rw [hpayload, bytesOf_length, heq] at hlen
        exact hlen rfl
      rw [if_neg hlen, Option.map_some, decide_eq_false hne]
  | some r =>
    obtain ⟨v, encoding⟩ := r
    obtain ⟨-, -, hkeeps⟩ := content_int h
    obtain ⟨hv, hdecimal⟩ := (string2ll_iff _ v).mp (zipTryEncoding_some h).1
    have hencoding : encodingOf e.text = encoding := by simp only [encodingOf, h]
    rw [hencoding, if_neg (by rw [hkeeps.notStr]; exact Bool.false_ne_true), hknown.getD]
    cases hs' : (zipTryEncoding s).map Prod.fst with
    | none =>
      have hne : e.text ≠ s := by
        intro heq
        rw [← heq, hdecimal, zipTryEncoding_decimal hv] at hs'
        cases hs'
      refine ⟨some none, ?_, ?_⟩
      · rw [decide_eq_false hne]
      · intro w hw
        cases hw
        exact hs'.symm
    | some w =>
      obtain ⟨r, hr, hw⟩ := Option.map_eq_some_iff.mp hs'
      obtain ⟨hv', hdecimal'⟩ := (string2ll_iff s r.1).mp (zipTryEncoding_some hr).1
      rw [hw] at hv' hdecimal'
      refine ⟨some (some w), ?_, ?_⟩
      · simp only [loadInteger_payload hkeeps hp, Option.map_some]
        congr 2
        rw [decide_eq_decide, hdecimal, hdecimal']
        exact ⟨fun heq => by rw [heq], decimal_inj hv hv'⟩
      · intro u hu
        cases hu
        exact hs'.symm

theorem find_spec (skip : ℕ) (hs : ByteText s) (es : List Entry) :
    ∀ (pre : Buf) (prev fuel p skipcnt : ℕ) (vll : Option (Option ℤ)), Chained prev es →
      (∀ e ∈ es, ByteText e.text) → Known s vll → es.length < fuel → p = 10 + pre.length →
      find (block (pre ++ layout prev es) off count) s skip fuel p skipcnt vll =
        some ((findText skip s skipcnt (es.map Entry.text)).map fun i => p + size (es.take i)) := by
  induction es with
  | nil =>
    intro pre prev fuel p skipcnt vll _ _ _ hfuel hp
    obtain ⟨fuel, rfl⟩ := Nat.exists_eq_add_one_of_ne_zero (Nat.ne_of_gt hfuel)
    rw [find, byteAt_end (by rw [layout_nil, List.append_nil, hp]), Option.bind_eq_bind, Option.bind_some,
      if_pos rfl, List.map_nil, findText, Option.map_none]
  | cons e es ih =>
    intro pre prev fuel p skipcnt vll hchained htexts hknown hfuel hp
    obtain ⟨fuel, rfl⟩ := Nat.exists_eq_add_one_of_ne_zero (Nat.ne_of_gt (Nat.zero_lt_of_lt hfuel))
    obtain ⟨hok, hes⟩ := hchained
    rw [List.length_cons] at hfuel
    have hrest : ∀ cnt vll', Known s vll' →
        find (block (pre ++ e.bytes prev ++ layout e.rawlen es) off count) s skip fuel (p + e.rawlen) cnt vll' =
          some (((findText skip s cnt (es.map Entry.text)).map (· + 1)).map
            fun i => p + size ((e :: es).take i)) := by
      intro cnt vll' hknown'
      rw [ih (pre ++ e.bytes prev) e.rawlen fuel (p + e.rawlen) cnt vll' hes
        (fun f hf => htexts f (List.mem_cons_of_mem _ hf)) hknown' (by omega)
        (by rw [List.length_append, bytes_length, hp, Nat.add_assoc]), Option.map_map]
      congr 2
      funext i
      simp only [Function.comp_apply, List.take_succ_cons, size_cons, Nat.add_assoc]
    have hplace : p + e.prevSize + (header e.text).length + (payload e.text).length = p + e.rawlen := by
      rw [Entry.rawlen]
      omega
    rw [layout_cons, ← List.append_assoc]
    obtain ⟨byte, hbyte, hne⟩ := @byteAt_block pre (layout e.rawlen es) off count e prev p hok hp
    have hdecode : decodeLength (block (pre ++ e.bytes prev ++ layout e.rawlen es) off count) (p + e.prevSize) =
        some (encodingOf e.text, (header e.text).length, (payload e.text).length) := by
      rw [block_split]
      exact decodeLength_entry hok (by simp [hp])
    rw [find]
    simp only [hbyte, Option.bind_eq_bind, Option.bind_some, if_neg hne, decodePrevlensize_block hok hp, hdecode,
      hplace, List.map_cons]
    cases skipcnt with
    | succ cnt =>
      rw [if_neg (Nat.succ_ne_zero cnt), Nat.add_sub_cancel, hrest cnt vll hknown, findText]
    | zero =>
      obtain ⟨vll', hmatch, hknown'⟩ := @matchesEntry_spec pre (layout e.rawlen es) off count e prev p s vll
        (htexts e List.mem_cons_self) hs hknown hp
      rw [← Nat.add_assoc] at hmatch
      rw [if_pos rfl, hmatch, Option.bind_some, findText]
      by_cases heq : e.text = s
      · simp [heq]
      · simp only [decide_eq_false heq, Bool.false_eq_true, if_false, if_neg heq, hrest skip vll' hknown']

end

theorem Holds.find {zl : Buf} {es : List Entry} {s : Str} (h : Holds zl es) (skip : ℕ)
    (htexts : ∀ e ∈ es, ByteText e.text) (hs : ByteText s) :
    find zl s skip zl.length ZIPLIST_HEADER_SIZE 0 none =
      some ((findText skip s 0 (es.map Entry.text)).map fun i => 10 + size (es.take i)) := by
  have hfew := length_le_size es
  have hfind := @find_spec (lastOffset es) es.length s skip hs es [] 0
    (block (layout 0 es) (lastOffset es) es.length).length 10 0 none h.chained htexts
    (fun v hv => by cases hv) (by
      rw [block_length, layout_length]
      omega) rfl
  rw [h.shape]
  exact hfind

end NodeServer.Redis.Ziplist

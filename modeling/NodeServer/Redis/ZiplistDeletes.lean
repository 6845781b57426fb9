import NodeServer.Redis.ZiplistUpdates

/-! # Deleting entries of a ziplist -/

namespace NodeServer.Redis.Ziplist

open Bytes

/-! ### Finding the end of what goes -/

section

variable {off count : ℤ}

/-- So many entries are skipped, or all that are left. -/
theorem skipEntries_spec (num : ℕ) : ∀ (pre : Buf) (prev p : ℕ) (rest : List Entry), Chained prev rest →
    p = 10 + pre.length →
    skipEntries (block (pre ++ layout prev rest) off count) num p =
      some (p + size (rest.take num), (rest.take num).length) := by
  induction num with
  | zero =>
    intro pre prev p rest _ _
    rw [List.take_zero]
    rfl
  | succ num ih =>
    intro pre prev p rest hchained hp
    cases rest with
    | nil =>
      unfold skipEntries
      rw [byteAt_end (by rw [layout_nil, List.append_nil, hp]), Option.bind_eq_bind, Option.bind_some,
        if_pos rfl]
      rfl
    | cons e rest =>
      obtain ⟨hok, hrest⟩ := hchained
      rw [layout_cons, ← List.append_assoc]
      obtain ⟨byte, hbyte, hne⟩ := @byteAt_block pre (layout e.rawlen rest) off count e prev p hok hp
      unfold skipEntries
      simp only [hbyte, Option.bind_eq_bind, Option.bind_some, if_neg hne, rawEntryLength_block hok hp]
      rw [ih (pre ++ e.bytes prev) e.rawlen (p + e.rawlen) rest hrest
        (by rw [List.length_append, bytes_length, hp, Nat.add_assoc])]
      simp only [Option.bind_some, List.take_succ_cons, size_cons, List.length_cons, Nat.add_assoc]

/- The last entry ends where the list does. -/
theorem lastOffset_eq (es : List Entry) : lastOffset es + lastLen 0 es = size es := by
  rcases List.eq_nil_or_concat' es with rfl | ⟨init, last, rfl⟩
  · rfl
  · rw [lastOffset_append init (List.cons_ne_nil _ _), lastLen_append, size_append, size_cons, size_nil]
    simp [lastOffset, lastLen]

end

/-! ### Closing the gap -/

section

variable {pre gone L : Buf} {first first' : Entry} {off count : ℤ} {prev old : ℕ}

theorem prevSize_cases (e : Entry) : e.prevSize = 1 ∨ e.prevSize = 5 := by
  unfold Entry.prevSize
  split
  · exact Or.inr rfl
  · exact Or.inl rfl

/-- Where the first field of the entry behind the gap will stand: it takes bytes of the gap, or
gives bytes to it. -/
theorem field_split (hroom : diff first first' = 4 → 4 ≤ gone.length) :
    ∃ gone' field : Buf, pre ++ gone ++ first.bytes old ++ L =
        pre ++ gone' ++ field ++ (first.content ++ L) ∧
      (gone'.length : ℤ) = gone.length - diff first first' ∧ field.length = first'.prevSize := by
  have hfield := prevField_length first old
  rcases diff_range first first' with hzero | hfour | ⟨hless, -⟩
  · refine ⟨gone, first.prevField old, ?_, by omega, ?_⟩
    · simp only [bytes_eq, List.append_assoc]
    · unfold diff at hzero
      omega
  · have hcut : gone = gone.take (gone.length - 4) ++ gone.drop (gone.length - 4) :=
      (List.take_append_drop _ _).symm
    have hroom' := hroom hfour
    refine ⟨gone.take (gone.length - 4), gone.drop (gone.length - 4) ++ first.prevField old, ?_, ?_, ?_⟩
    · conv_lhs => rw [hcut]
      simp only [bytes_eq, List.append_assoc]
    · rw [List.length_take, hfour]
      omega
    · rw [List.length_append, List.length_drop, hfield]
      unfold diff at hfour
      omega
  · have hcut : first.prevField old = (first.prevField old).take 4 ++ (first.prevField old).drop 4 :=
      (List.take_append_drop _ _).symm
    have hlong : first.prevSize = 5 ∧ first'.prevSize = 1 := by
      have hcases := prevSize_cases first
      have hcases' := prevSize_cases first'
      unfold diff at hless
      omega
    refine ⟨gone ++ (first.prevField old).take 4, (first.prevField old).drop 4, ?_, ?_, ?_⟩
    · rw [bytes_eq]
      conv_lhs => rw [hcut]
      simp only [List.append_assoc]
    · rw [List.length_append, List.length_take, hfield, hless, hlong.1]
      omega
    · rw [List.length_drop, hfield, hlong.1, hlong.2]

/-- The entries behind those that go are moved down. -/
theorem closeGap_spec {more : List Entry} {n : ℕ} (hfirst : first.Ok old)
    (hfirst' : first' = ⟨wide prev, first.text⟩) (hok : first'.Ok prev) (hmore : Chained first.rawlen more)
    (hroom : diff first first' = 4 → 4 ≤ gone.length)
    (hsmall : 11 + (pre.length + gone.length + first.rawlen + size more) < 2 ^ 32)
    (hn : n + lastOffset (first :: more) ≤ pre.length + size (first :: more)) :
    ∃ rest : Buf, closeGap (block (pre ++ gone ++ first.bytes old ++ layout first.rawlen more)
        (n + gone.length + lastOffset (first :: more) : ℕ) count) (10 + pre.length)
        (10 + pre.length + gone.length) prev =
          some (block (pre ++ first'.bytes prev ++ layout first.rawlen more ++ rest)
            (n + lastOffset (first' :: more) : ℕ) count, diff first first') ∧
      (rest.length : ℤ) = gone.length - diff first first' := by
  have htext : first'.text = first.text := by rw [hfirst']
  have hcontent : first'.content = first.content := by rw [Entry.content, Entry.content, htext]
  have hrange := diff_range first first'
  have hrawlen := rawlen_diff htext
  have hpos := rawlen_pos first
  have hoff := lastOffset_le (first :: more)
  rw [size_cons] at hoff hn
  have hdiff : prevLenByteDiff (block (pre ++ gone ++ first.bytes old ++ layout first.rawlen more)
      (n + gone.length + lastOffset (first :: more) : ℕ) count) (10 + pre.length + gone.length) prev =
      some (diff first first') := by
    unfold prevLenByteDiff
    rw [decodePrevlensize_block hfirst (by rw [List.length_append, Nat.add_assoc]), Option.map_some, diff,
      prevlenSize_eq prev first.text, ← hfirst']
  obtain ⟨gone', field, hsplit, hgone', hfield⟩ := @field_split pre gone (layout first.rawlen more) first first'
    old hroom
  have hq : (((10 + pre.length + gone.length : ℕ) : ℤ) - diff first first').toNat =
      10 + (pre ++ gone').length := by
    rw [List.length_append]
    omega
  have hbytes : prevlenBytes prev = first'.prevField prev := by
    rw [hfirst', prevlenBytes_eq prev first.text]
  have hregroup : pre ++ gone' ++ first'.prevField prev ++ (first.content ++ layout first.rawlen more) =
      pre ++ gone' ++ first'.bytes prev ++ layout first.rawlen more := by
    simp only [bytes_eq, hcontent, List.append_assoc]
  have hlength : (pre ++ gone' ++ first'.bytes prev ++ layout first.rawlen more).length =
      pre.length + gone'.length + first'.rawlen + size more := by
    simp [Nat.add_assoc]
  unfold closeGap
  simp only [hdiff, Option.bind_eq_bind, Option.bind_some, hq]
  rw [hsplit, hbytes, store_block rfl (by rw [prevField_length, hfield]), Option.bind_some, hregroup,
    shiftTail_block _ _ (by omega) (by omega), Option.bind_some, if_pos rfl,
    zipEntry_block hok rfl, Option.bind_some, Nat.add_assoc (10 + (pre ++ gone').length), zlentry_rawlen]
  obtain ⟨after, hafter, hlast⟩ : ∃ after, byteAt (block
      (pre ++ gone' ++ first'.bytes prev ++ layout first.rawlen more)
      ((n + gone.length + lastOffset (first :: more) : ℕ) + -(gone.length : ℤ)) count)
      (10 + (pre ++ gone').length + first'.rawlen) = some after ∧ (after = ZIP_END ↔ more = []) :=
    byteAt_after hmore (Nat.add_assoc _ _ _)
  have htotlen : 10 + pre.length + gone.length - (10 + pre.length) = gone.length := by omega
  have htail := @tail_diff first first' more after
    ((n + gone.length + lastOffset (first :: more) : ℕ) + -(gone.length : ℤ)) n htext hlast (by omega)
  rw [htotlen, hafter, Option.bind_some, shiftTail_block _ _ (by omega) (by omega), htail, ← Nat.cast_add,
    Option.bind_some, bytes_block (by rw [hlength]; omega), Option.bind_some, hlength]
  have hgather : pre ++ gone' ++ first'.bytes prev ++ layout first.rawlen more =
      pre ++ gone' ++ (first'.bytes prev ++ layout first.rawlen more) := List.append_assoc _ _ _
  obtain ⟨rest, hmove, hrest⟩ := @moveDown_block pre (first'.bytes prev ++ layout first.rawlen more)
    (n + lastOffset (first' :: more) : ℕ) count (10 + pre.length) gone' (10 + (pre ++ gone').length)
    (11 + (pre.length + gone'.length + first'.rawlen + size more) - (10 + (pre ++ gone').length) - 1) rfl
    (by rw [List.length_append, Nat.add_assoc]) (by
      rw [List.length_append, List.length_append, bytes_length, layout_length]
      omega)
  refine ⟨rest, ?_, by omega⟩
  rw [hgather, hmove, Option.bind_some, ← List.append_assoc pre]

end

/-! ### Deleting -/

section

variable {zl : Buf} {pre gone : List Entry} {junk : ℕ → UInt8}

/- The last steps of a deletion: the block is cut, the entries are counted, and those behind the
gap learn about the new length before them. -/
def finish (zl : Buf) (p totlen deleted : ℕ) (nextdiff : ℤ) (junk : ℕ → UInt8) : Option Buf :=
  (bytes zl).bind fun bytes =>
    (resize zl ((bytes : ℤ) - totlen + nextdiff).toNat junk).bind fun zl =>
      (incrLength zl (-deleted)).bind fun zl => cascadeIf zl p nextdiff junk

theorem remove_at_end (h : Holds zl (pre ++ gone)) :
    ∃ zl', (removeBytes zl (10 + size pre) (10 + size pre + size gone) (lastLen 0 pre)).bind (fun r =>
        finish r.1 (10 + size pre) (size gone) gone.length r.2 junk) = some zl' ∧ Holds zl' pre := by
  have hlt := h.size_lt
  have hfew := h.few
  have hsmall := h.small
  have hlast := lastOffset_eq pre
  rw [size_append] at hlt
  rw [List.length_append] at hfew
  rw [List.map_append, weight_append] at hsmall
  have hlength : (layout 0 (pre ++ gone)).length = size pre + size gone := by
    rw [layout_length, size_append]
  have htail : ((10 + size pre : ℕ) : ℤ) - (lastLen 0 pre : ℕ) = 10 + (lastOffset pre : ℤ) := by omega
  have hcut : (((11 + (layout 0 (pre ++ gone)).length : ℕ) : ℤ) - (size gone : ℕ) + 0).toNat =
      11 + (layout 0 pre).length := by
    rw [hlength, layout_length]
    omega
  have hcount : (((pre ++ gone).length : ℕ) : ℤ) + -((gone.length : ℕ) : ℤ) = (pre.length : ℕ) := by
    rw [List.length_append]
    omega
  refine ⟨block (layout 0 pre) (lastOffset pre) pre.length, ?_,
    ⟨rfl, ((chained_append 0 pre gone).mp h.chained).1, by omega, by omega⟩⟩
  rw [h.shape, removeBytes, byteAt_end (by rw [hlength, Nat.add_assoc]), Option.bind_some, if_neg (by simp),
    dropTail, htail, setTailOffset_block, Option.map_some, Option.bind_some, finish,
    bytes_block (by rw [hlength]; omega), Option.bind_some, hcut, layout_append,
    resize_block_cut _ _ _ _ _ (by rw [layout_length]; omega), Option.bind_some,
    incrLength_block _ (by omega) (by rw [List.length_append]; omega), Option.bind_some, hcount]
  rfl

theorem remove_before {first : Entry} {more : List Entry} (h : Holds zl (pre ++ (gone ++ first :: more)))
    (hgone : gone ≠ []) :
    ∃ zl' post', (removeBytes zl (10 + size pre) (10 + size pre + size gone) (lastLen 0 pre)).bind (fun r =>
        finish r.1 (10 + size pre) (size gone) gone.length r.2 junk) = some zl' ∧
      Holds zl' (pre ++ post') ∧ post'.map Entry.text = (first :: more).map Entry.text := by
  have hlt := h.size_lt
  have hfew := h.few
  have hsmall := h.small
  have hlast := lastLen_le pre
  obtain ⟨hpre, hrest⟩ := (chained_append 0 pre (gone ++ first :: more)).mp h.chained
  obtain ⟨hdel, hfirst, hmore⟩ := (chained_append _ gone (first :: more)).mp hrest
  rw [size_append, size_append, size_cons] at hlt
  rw [List.length_append, List.length_append, List.length_cons] at hfew
  rw [List.map_append, List.map_append, List.map_cons, weight_append, weight_append, weight_cons] at hsmall
  have hwpre := size_le_weight pre
  set first' : Entry := ⟨wide (lastLen 0 pre), first.text⟩ with hfirst'
  have hok : first'.Ok (lastLen 0 pre) := ok_wide (by omega) hfirst.short
  have hle : first'.rawlen ≤ first.text.length + 18 := rawlen_le first'
  have hrawlen := @rawlen_diff first first' rfl
  -- If the entry behind the gap needs five bytes, then so did the first one that goes.
  have hroom : diff first first' = 4 → 4 ≤ (layout (lastLen 0 pre) gone).length := by
    intro hfour
    obtain ⟨d, ds, rfl⟩ := List.exists_cons_of_ne_nil hgone
    have hwide : first'.large = true := by
      have hcases := prevSize_cases first
      unfold diff at hfour
      cases hl : first'.large with
      | true => rfl
      | false =>
        have hone : first'.prevSize = 1 := by rw [Entry.prevSize, hl]; rfl
        omega
    have hlarge : d.large = true := by
      cases hl : d.large with
      | true => rfl
      | false =>
        have hnarrow := hdel.1.room hl
        simp [hfirst', wide, hnarrow] at hwide
    have hfive : d.prevSize = 5 := by rw [Entry.prevSize, hlarge]; rfl
    rw [layout_length, size_cons, rawlen_eq, hfive]
    omega
  have hshape : zl = block (layout 0 pre ++ layout (lastLen 0 pre) gone ++
      first.bytes (lastLen (lastLen 0 pre) gone) ++ layout first.rawlen more)
      (size pre + (layout (lastLen 0 pre) gone).length + lastOffset (first :: more) : ℕ)
      (pre ++ (gone ++ first :: more)).length := by
    rw [h.shape, layout_append, layout_append, layout_cons, ← List.append_assoc, ← List.append_assoc,
      lastOffset_append pre (by simp), lastOffset_append gone (List.cons_ne_nil _ _), layout_length,
      Nat.add_assoc]
  have hq : 10 + size pre + size gone = 10 + (layout 0 pre ++ layout (lastLen 0 pre) gone).length := by
    rw [List.length_append, layout_length, layout_length, Nat.add_assoc]
  have hcount : (((pre ++ (gone ++ first :: more)).length : ℕ) : ℤ) + -((gone.length : ℕ) : ℤ) =
      (pre.length + (more.length + 1) : ℕ) := by
    rw [List.length_append, List.length_append, List.length_cons]
    omega
  have hbound : (((pre ++ (gone ++ first :: more)).length : ℕ) : ℤ) < UINT16_MAX := by
    rw [List.length_append, List.length_append, List.length_cons]
    omega
  have hpositive : (0 : ℤ) ≤ ((pre ++ (gone ++ first :: more)).length : ℕ) := by omega
  generalize (((pre ++ (gone ++ first :: more)).length : ℕ) : ℤ) = count at hshape hcount hbound hpositive
  have hoff := lastOffset_le (first :: more)
  obtain ⟨byte, hbyte, hne⟩ := @byteAt_block (layout 0 pre ++ layout (lastLen 0 pre) gone)
    (layout first.rawlen more)
    (size pre + (layout (lastLen 0 pre) gone).length + lastOffset (first :: more) : ℕ) count first
    (lastLen (lastLen 0 pre) gone) _ hfirst hq
  obtain ⟨rest, hclose, hlen⟩ := @closeGap_spec (layout 0 pre) (layout (lastLen 0 pre) gone) first first' count
    (lastLen 0 pre) _ more (size pre) hfirst rfl hok hmore hroom
    (by rw [layout_length, layout_length]; omega) (by rw [layout_length]; omega)
  rw [layout_length, layout_length] at hclose
  rw [layout_length] at hlen hshape hbyte
  obtain ⟨more', hcascade, hchained, htexts⟩ := @cascadeIf_spec (layout 0 pre) first first'
    (pre.length + (more.length + 1) : ℕ) junk (lastLen 0 pre) more hok rfl hmore
    (by rw [layout_length]; omega)
  rw [layout_length] at hcascade
  have hlength : (layout 0 pre ++ first'.bytes (lastLen 0 pre) ++ layout first.rawlen more).length =
      size pre + first'.rawlen + size more := by
    simp [Nat.add_assoc]
  have hcut : (((11 + (layout 0 pre ++ first'.bytes (lastLen 0 pre) ++ layout first.rawlen more ++
      rest).length : ℕ) : ℤ) - (size gone : ℕ) + diff first first').toNat =
      11 + (layout 0 pre ++ first'.bytes (lastLen 0 pre) ++ layout first.rawlen more).length := by
    rw [List.length_append, hlength]
    omega
  have hsame := length_of_texts htexts
  refine ⟨block (layout 0 (pre ++ first' :: more')) (lastOffset (pre ++ first' :: more'))
    (pre ++ first' :: more').length, first' :: more', ?_, ⟨rfl, ?_, ?_, ?_⟩, ?_⟩
  · rw [removeBytes, hshape, hbyte, Option.bind_some, if_pos hne, hclose, Option.bind_some, finish,
      bytes_block (by rw [List.length_append, hlength]; omega), Option.bind_some, hcut,
      resize_block_cut _ _ _ _ _ (by rw [hlength]; omega), Option.bind_some,
      incrLength_block _ hpositive hbound, Option.bind_some, hcount, hcascade, layout_append, layout_cons,
      List.append_assoc (layout 0 pre), lastOffset_append pre (List.cons_ne_nil _ _), List.length_append,
      List.length_cons, hsame]
  · exact (chained_append 0 pre (first' :: more')).mpr ⟨hpre, hok, hchained⟩
  · rw [List.length_append, List.length_cons, hsame]
    omega
  · rw [List.map_append, List.map_cons, htexts, weight_append, weight_cons]
    change 11 + (_ + (first.text.length + 18 + _)) < _
    omega
  · rw [List.map_cons, htexts, List.map_cons]

/-- A deletion takes out so many entries from a position on, or all that are left. -/
theorem Holds.delete {e : Entry} {rest : List Entry} (h : Holds zl (pre ++ e :: rest)) (num : ℕ) :
    ∃ zl' post', delete zl (10 + size pre) num junk = some zl' ∧ Holds zl' (pre ++ post') ∧
      post'.map Entry.text = ((e :: rest).drop num).map Entry.text := by
  obtain ⟨-, hrest⟩ := (chained_append 0 pre (e :: rest)).mp h.chained
  have hplace : 10 + size pre = 10 + (layout 0 pre).length := by rw [layout_length]
  have hskip : skipEntries zl num (10 + size pre) =
      some (10 + size pre + size ((e :: rest).take num), ((e :: rest).take num).length) := by
    rw [h.shape, layout_append]
    exact skipEntries_spec num (layout 0 pre) (lastLen 0 pre) _ (e :: rest) hrest hplace
  have hzip : zipEntry zl (10 + size pre) = some (e.zlentry (lastLen 0 pre)) := by
    rw [h.shape, layout_append, layout_cons, ← List.append_assoc]
    exact zipEntry_block hrest.1 hplace
  have htotlen : 10 + size pre + size ((e :: rest).take num) - (10 + size pre) =
      size ((e :: rest).take num) := by omega
  have hwhole : pre ++ e :: rest = pre ++ ((e :: rest).take num ++ (e :: rest).drop num) := by
    rw [List.take_append_drop]
  unfold Ziplist.delete
  simp only [hzip, hskip, Option.bind_eq_bind, Option.bind_some, htotlen]
  cases num with
  | zero =>
    rw [List.take_zero, if_neg (by simp)]
    exact ⟨zl, e :: rest, rfl, h, rfl⟩
  | succ num =>
    have hpos := rawlen_pos e
    have hgone : (e :: rest).take (num + 1) ≠ [] := by simp
    rw [if_pos (by rw [List.take_succ_cons, size_cons]; omega)]
    rw [hwhole] at h
    cases hdrop : (e :: rest).drop (num + 1) with
    | nil =>
      rw [hdrop, List.append_nil] at h
      obtain ⟨zl', hrun, hholds⟩ := @remove_at_end zl pre _ junk h
      exact ⟨zl', [], hrun, by rw [List.append_nil]; exact hholds, rfl⟩
    | cons first more =>
      rw [hdrop] at h
      exact remove_before h hgone

end

end NodeServer.Redis.Ziplist

import NodeServer.Redis.ZiplistLayout

/-! # Updates of a ziplist

Inserting and deleting entries. When an entry changes its length, the entry behind it has to
hold the new length, for which it may need four bytes more; it then changes its own length,
and so on. -/

namespace NodeServer.Redis.Ziplist

open Bytes

/-! ### How long entries can get -/

section

variable {e : Entry} {prev : ℕ}

theorem zipIntSize_le {encoding n : ℕ} (h : zipIntSize encoding = some n) : n ≤ 8 := by
  unfold zipIntSize at h
  split_ifs at h <;> cases h <;> omega

theorem content_length_le (s : Str) : (header s).length + (payload s).length ≤ s.length + 13 := by
  cases h : zipTryEncoding s with
  | some e =>
    obtain ⟨-, hheader, hkeeps⟩ := content_int h
    have hsize := zipIntSize_le hkeeps.size
    rw [hheader, List.length_singleton]
    omega
  | none =>
    obtain ⟨-, hheader, hpayload⟩ := content_str h
    have hle : (encodingBytes 0 s.length).length ≤ 5 := by
      rw [encodingBytes, if_pos (by decide)]
      split_ifs <;> simp
    rw [hheader, hpayload, bytesOf_length]
    omega

theorem rawlen_le (e : Entry) : e.rawlen ≤ e.text.length + 18 := by
  have hcontent := content_length_le e.text
  have hprev : e.prevSize ≤ 5 := by
    unfold Entry.prevSize
    split <;> omega
  unfold Entry.rawlen
  omega

@[simp] theorem weight_cons (t : Str) (ts : List Str) : weight (t :: ts) = t.length + 18 + weight ts := by
  simp [weight]

@[simp] theorem weight_append (ss ts : List Str) : weight (ss ++ ts) = weight ss + weight ts := by
  simp [weight]

theorem size_le_weight (es : List Entry) : size es ≤ weight (es.map Entry.text) := by
  induction es with
  | nil => exact Nat.le_refl _
  | cons e es ih =>
    have hle := rawlen_le e
    rw [size_cons, List.map_cons, weight_cons]
    omega

theorem lastLen_le (es : List Entry) : lastLen 0 es ≤ size es := by
  rcases List.eq_nil_or_concat' es with rfl | ⟨init, last, rfl⟩
  · exact Nat.le_refl _
  · rw [lastLen_append, size_append, size_cons]
    exact Nat.le_trans (Nat.le_add_right _ _) (Nat.le_add_left _ _)

theorem length_of_texts {es fs : List Entry} (h : es.map Entry.text = fs.map Entry.text) :
    es.length = fs.length := by
  have hlength := congrArg List.length h
  rwa [List.length_map, List.length_map] at hlength

theorem length_le_size (es : List Entry) : es.length ≤ size es := by
  induction es with
  | nil => exact Nat.le_refl _
  | cons e es ih =>
    have hpos := rawlen_pos e
    rw [size_cons, List.length_cons]
    omega

end

/-! ### An entry with another field for the length before it -/

/- Whether a length has to be kept in five bytes. -/
def wide (len : ℕ) : Bool := ¬ len < ZIP_BIG_PREVLEN

/- The rest of the entry. -/
def Entry.content (e : Entry) : Buf := header e.text ++ payload e.text

section

variable {e : Entry} {prev len : ℕ}

theorem bytes_eq (e : Entry) (prev : ℕ) : e.bytes prev = e.prevField prev ++ e.content := rfl

theorem rawlen_eq (e : Entry) : e.rawlen = e.prevSize + e.content.length := by
  rw [Entry.rawlen, Entry.content, List.length_append, Nat.add_assoc]

theorem rawlen_mk (large : Bool) (t : Str) :
    (Entry.mk large t).rawlen = (if large then 5 else 1) + ((header t).length + (payload t).length) :=
  Nat.add_assoc _ _ _

/- The entry with five bytes for the length before it. -/
theorem rawlen_widened (h : e.large = false) : (Entry.mk true e.text).rawlen = e.rawlen + 4 := by
  have hnarrow : e.rawlen = (Entry.mk false e.text).rawlen := by rw [← h]
  rw [hnarrow, rawlen_mk, rawlen_mk, if_pos rfl, if_neg Bool.false_ne_true]
  omega

theorem ok_large (hlen : len < 2 ^ 32) {t : Str} (ht : t.length < 2 ^ 32) : (Entry.mk true t).Ok len := by
  refine ⟨?_, hlen, ht⟩
  intro hfalse
  cases hfalse

theorem prevlenSize_eq (len : ℕ) (t : Str) : prevlenSize len = (Entry.mk (wide len) t).prevSize := by
  unfold prevlenSize Entry.prevSize wide
  by_cases h : len < ZIP_BIG_PREVLEN <;> simp [h]

theorem prevlenBytes_eq (len : ℕ) (t : Str) :
    prevlenBytes len = (Entry.mk (wide len) t).prevField len := by
  unfold prevlenBytes Entry.prevField wide
  by_cases h : len < ZIP_BIG_PREVLEN <;> simp [h]

/- An entry that has room enough keeps its field. -/
theorem kept_field (h : ¬ e.prevSize < prevlenSize len) :
    (if e.prevSize > prevlenSize len then prevlenBytesLarge len else prevlenBytes len) =
      e.prevField len := by
  unfold Entry.prevSize prevlenSize at h
  unfold Entry.prevSize prevlenSize prevlenBytes Entry.prevField
  cases hlarge : e.large <;> by_cases hlen : len < ZIP_BIG_PREVLEN <;> simp_all

theorem ok_wide (hlen : len < 2 ^ 32) {t : Str} (ht : t.length < 2 ^ 32) : (Entry.mk (wide len) t).Ok len := by
  refine ⟨?_, hlen, ht⟩
  intro hfalse
  simpa [wide] using hfalse

end

/-! ### The cascade -/

section

variable {pre L slot : Buf} {next : Entry} {off count : ℤ}

/- The last entry starts four bytes further on, if it is not the one that has got longer. -/
theorem shifted_lastOffset {more : List Entry} (hlarge : next.large = false) (n : ℕ) :
    n + lastOffset (Entry.mk true next.text :: more) =
      if n + lastOffset (next :: more) ≠ n then n + lastOffset (next :: more) + 4
      else n + lastOffset (next :: more) := by
  cases more with
  | nil => simp [lastOffset]
  | cons f fs =>
    have hpos := rawlen_pos next
    rw [lastOffset_cons _ (List.cons_ne_nil _ _), lastOffset_cons _ (List.cons_ne_nil _ _),
      rawlen_widened hlarge, if_pos (by omega)]
    omega

theorem shiftTail_widened {body : Buf} {more : List Entry} {n : ℕ} (hlarge : next.large = false)
    (hsmall : 10 + (n + lastOffset (next :: more)) < 2 ^ 32) :
    shiftTail (block body (n + lastOffset (next :: more) : ℕ) count)
        (decide ((10 + ((n + lastOffset (next :: more) : ℕ) : ℤ)).toNat ≠ 10 + n)) 4 =
      some (block body (n + lastOffset (Entry.mk true next.text :: more) : ℕ) count) := by
  rw [shiftTail_block _ _ (by omega) (by omega), shifted_lastOffset hlarge]
  by_cases hlast : n + lastOffset (next :: more) = n
  · rw [if_neg (by simp only [decide_eq_true_eq]; omega), if_neg (by omega)]
  · rw [if_pos (by simp only [decide_eq_true_eq]; omega), if_pos hlast]
    push_cast
    rfl

/-- An entry whose block has got four bytes more is moved up, and its first field written anew. -/
theorem widen_entry {rawlen old p n : ℕ} (hlarge : next.large = false) (hwide : wide rawlen = true)
    (hslot : slot.length = 4) (hp : p = 10 + pre.length) (hn : n = next.rawlen + L.length - 1) :
    ∃ zl, move (block (pre ++ next.bytes old ++ L ++ slot) off count) (p + 5) (p + 1) n = some zl ∧
      store zl p (prevlenBytes rawlen) =
        some (block (pre ++ (Entry.mk true next.text).bytes rawlen ++ L) off count) := by
  have hfield : (next.prevField old).length = 1 := by
    rw [prevField_length, Entry.prevSize, hlarge]
    rfl
  have hsplit : pre ++ next.bytes old ++ L ++ slot =
      (pre ++ next.prevField old) ++ (next.content ++ L) ++ slot := by
    simp only [bytes_eq, List.append_assoc]
  have hrawlen := rawlen_eq next
  rw [Entry.prevSize, hlarge, if_neg Bool.false_ne_true] at hrawlen
  obtain ⟨slot', hmove, hslot'⟩ := @move_block (pre ++ next.prevField old) (next.content ++ L) slot off count
    (p + 1) (p + 5) n (by rw [List.length_append]; omega) (by rw [List.length_append]; omega)
    (by rw [List.length_append]; omega)
  refine ⟨_, by rw [hsplit, hmove], ?_⟩
  have hregroup : pre ++ next.prevField old ++ slot' ++ (next.content ++ L) =
      pre ++ (next.prevField old ++ slot') ++ (next.content ++ L) := by
    simp only [List.append_assoc]
  have hbytes : prevlenBytes rawlen = (Entry.mk true next.text).prevField rawlen := by
    rw [prevlenBytes_eq rawlen next.text, hwide]
  rw [hregroup, hbytes, store_block hp (by
    rw [prevField_length, List.length_append, hfield, hslot', hslot]
    rfl)]
  simp only [bytes_eq, List.append_assoc]
  rfl

/-- The first field of an entry is written anew. -/
theorem rewrite_entry {rawlen old p : ℕ} (hp : p = 10 + pre.length) :
    store (block (pre ++ next.bytes old ++ L) off count) p (next.prevField rawlen) =
      some (block (pre ++ next.bytes rawlen ++ L) off count) := by
  have hsplit : ∀ len, pre ++ next.bytes len ++ L = pre ++ next.prevField len ++ (next.content ++ L) := by
    intro len
    simp only [bytes_eq, List.append_assoc]
  rw [hsplit, hsplit]
  exact store_block hp (by rw [prevField_length, prevField_length])

end

section

variable {junk : ℕ → UInt8} {count : ℤ}

theorem cascadeUpdate_cons {pre L : Buf} {cur next : Entry} {prev old fuel curlen : ℕ} {off : ℤ}
    (hcur : cur.Ok prev) (hnext : next.Ok old) :
    cascadeUpdate junk (fuel + 1) (block (pre ++ cur.bytes prev ++ (next.bytes old ++ L)) off count)
        (10 + pre.length) curlen =
      if old = cur.rawlen then some (block (pre ++ cur.bytes prev ++ (next.bytes old ++ L)) off count)
      else if next.prevSize < prevlenSize cur.rawlen then do
        let extra := prevlenSize cur.rawlen - next.prevSize
        let zl ← resize (block (pre ++ cur.bytes prev ++ (next.bytes old ++ L)) off count)
          (curlen + extra) junk
        let tail ← tailOffset zl
        let zl ← shiftTail zl (tail ≠ 10 + pre.length + cur.rawlen) extra
        let zl ← move zl (10 + pre.length + cur.rawlen + prevlenSize cur.rawlen)
          (10 + pre.length + cur.rawlen + next.prevSize)
          (curlen - (10 + pre.length + cur.rawlen) - next.prevSize - 1)
        let zl ← store zl (10 + pre.length + cur.rawlen) (prevlenBytes cur.rawlen)
        cascadeUpdate junk fuel zl (10 + pre.length + cur.rawlen) (curlen + extra)
      else store (block (pre ++ cur.bytes prev ++ (next.bytes old ++ L)) off count)
        (10 + pre.length + cur.rawlen) (next.prevField cur.rawlen) := by
  obtain ⟨first, hfirst, hne⟩ :=
    @byteAt_block pre (next.bytes old ++ L) off count cur prev (10 + pre.length) hcur rfl
  have hzip : zipEntry (block (pre ++ cur.bytes prev ++ (next.bytes old ++ L)) off count)
      (10 + pre.length) = some (cur.zlentry prev) := zipEntry_block hcur rfl
  have hplace : 10 + pre.length + cur.rawlen = 10 + (pre ++ cur.bytes prev).length := by
    rw [List.length_append, bytes_length, Nat.add_assoc]
  obtain ⟨after, hafter, hne'⟩ := @byteAt_block (pre ++ cur.bytes prev) L off count next old _ hnext hplace
  have hzip' : zipEntry (block (pre ++ cur.bytes prev ++ (next.bytes old ++ L)) off count)
      (10 + pre.length + cur.rawlen) = some (next.zlentry old) := by
    rw [← List.append_assoc]
    exact zipEntry_block hnext hplace
  rw [List.append_assoc (pre ++ cur.bytes prev)] at hafter
  rw [cascadeUpdate]
  simp only [hfirst, Option.bind_eq_bind, Option.bind_some, if_neg hne, hzip, zlentry_rawlen, hafter,
    if_neg hne', hzip']
  change (if old = cur.rawlen then _ else if next.prevSize < prevlenSize cur.rawlen then _
    else if next.prevSize > prevlenSize cur.rawlen then _ else _) = _
  by_cases hsame : old = cur.rawlen
  · rw [if_pos hsame, if_pos hsame]
  · rw [if_neg hsame, if_neg hsame]
    by_cases hgrow : next.prevSize < prevlenSize cur.rawlen
    · rw [if_pos hgrow, if_pos hgrow]
      rfl
    · rw [if_neg hgrow, if_neg hgrow, ← kept_field hgrow]
      split <;> rfl

/-- From an entry on, every length before an entry is made right. The texts stay. -/
theorem cascadeUpdate_spec (rest : List Entry) :
    ∀ (pre : Buf) (cur : Entry) (prev old fuel : ℕ), cur.Ok prev → Chained old rest →
      rest.length < fuel → 11 + pre.length + cur.rawlen + weight (rest.map Entry.text) < 2 ^ 32 →
      ∃ rest', cascadeUpdate junk fuel
          (block (pre ++ cur.bytes prev ++ layout old rest) (pre.length + lastOffset (cur :: rest) : ℕ) count)
          (10 + pre.length) (11 + (pre.length + cur.rawlen + size rest)) =
            some (block (pre ++ cur.bytes prev ++ layout cur.rawlen rest')
              (pre.length + lastOffset (cur :: rest') : ℕ) count) ∧
        Chained cur.rawlen rest' ∧ rest'.map Entry.text = rest.map Entry.text := by
  induction rest with
  | nil =>
    intro pre cur prev old fuel hok _ hfuel _
    refine ⟨[], ?_, trivial, rfl⟩
    obtain ⟨fuel, rfl⟩ := Nat.exists_eq_add_one_of_ne_zero (Nat.ne_of_gt hfuel)
    obtain ⟨first, hfirst, hne⟩ :=
      @byteAt_block pre (layout old []) (pre.length + lastOffset [cur] : ℕ) count cur prev
        (10 + pre.length) hok rfl
    have hafter : byteAt (block (pre ++ cur.bytes prev ++ layout old [])
        (pre.length + lastOffset [cur] : ℕ) count)
        (10 + pre.length + ((cur.zlentry prev).headersize + (cur.zlentry prev).len)) = some ZIP_END := by
      rw [zlentry_rawlen]
      exact byteAt_end (by simp [Nat.add_assoc])
    unfold cascadeUpdate
    simp only [hfirst, Option.bind_eq_bind, Option.bind_some, if_neg hne, zipEntry_block hok rfl, hafter,
      if_pos]
    rfl
  | cons next more ih =>
    intro pre cur prev old fuel hok hchained hfuel hsmall
    obtain ⟨hnext, hmore⟩ := hchained
    obtain ⟨fuel, rfl⟩ := Nat.exists_eq_add_one_of_ne_zero (Nat.ne_of_gt (Nat.zero_lt_of_lt hfuel))
    rw [List.length_cons] at hfuel
    rw [List.map_cons, weight_cons] at hsmall
    have hcurlen := rawlen_le next
    have hsize := size_le_weight more
    have hoff := lastOffset_le (next :: more)
    rw [size_cons] at hoff
    have hpos := rawlen_pos next
    rw [layout_cons, size_cons, cascadeUpdate_cons hok hnext, lastOffset_cons cur (List.cons_ne_nil _ _),
      ← Nat.add_assoc]
    by_cases hsame : old = cur.rawlen
    · rw [if_pos hsame]
      subst hsame
      refine ⟨next :: more, ?_, ⟨hnext, hmore⟩, rfl⟩
      rw [layout_cons, lastOffset_cons cur (List.cons_ne_nil _ _),
      ← Nat.add_assoc]
    · have hword : cur.rawlen < 2 ^ 32 := by omega
      rw [if_neg hsame]
      by_cases hgrow : next.large = false ∧ wide cur.rawlen = true
      · -- The next entry needs four bytes more, and the one behind it has to know.
        obtain ⟨hlarge, hwide⟩ := hgrow
        have hone : next.prevSize = 1 := by
          rw [Entry.prevSize, hlarge]
          rfl
        have hfive : prevlenSize cur.rawlen = 5 := by
          rw [prevlenSize_eq cur.rawlen [], hwide]
          rfl
        have hlonger := rawlen_widened hlarge
        have hbound : (Entry.mk true next.text).rawlen ≤ next.text.length + 18 := rawlen_le _
        have hlength : (pre ++ cur.bytes prev ++ (next.bytes old ++ layout next.rawlen more)).length =
            pre.length + cur.rawlen + (next.rawlen + size more) := by
          simp [Nat.add_assoc]
        obtain ⟨slot, hresize, hslot, -⟩ := resize_block_grow
          (pre ++ cur.bytes prev ++ (next.bytes old ++ layout next.rawlen more))
          (pre.length + cur.rawlen + lastOffset (next :: more) : ℕ) count 4 junk
          (by rw [hlength]; omega)
        rw [hlength] at hresize
        obtain ⟨zl, hmove, hstore⟩ := @widen_entry (pre ++ cur.bytes prev) (layout next.rawlen more) slot next
          (pre.length + cur.rawlen + lastOffset (Entry.mk true next.text :: more) : ℕ) count cur.rawlen old
          (10 + (pre.length + cur.rawlen)) (11 + (pre.length + cur.rawlen + (next.rawlen + size more)) -
            (10 + (pre.length + cur.rawlen)) - 1 - 1) hlarge hwide hslot
          (by rw [List.length_append, bytes_length]) (by rw [layout_length]; omega)
        rw [← List.append_assoc (pre ++ cur.bytes prev)] at hresize
        obtain ⟨more', hrun, hchained, htexts⟩ := ih (pre ++ cur.bytes prev) (Entry.mk true next.text)
          cur.rawlen next.rawlen fuel (ok_large hword hnext.short) hmore (by omega)
          (by rw [List.length_append, bytes_length]; omega)
        rw [List.length_append, bytes_length] at hrun
        have htotal : 11 + (pre.length + cur.rawlen + (Entry.mk true next.text).rawlen + size more) =
            11 + (pre.length + cur.rawlen + (next.rawlen + size more)) + 4 := by omega
        rw [htotal] at hrun
        refine ⟨Entry.mk true next.text :: more', ?_, ⟨ok_large hword hnext.short, hchained⟩, ?_⟩
        · rw [← List.append_assoc (pre ++ cur.bytes prev), Nat.add_assoc 10]
          have hextra : 5 - 1 = 4 := rfl
          rw [if_pos (by rw [hone, hfive]; decide), hone, hfive]
          dsimp only
          rw [hextra, hresize]
          simp only [Option.bind_eq_bind, Option.bind_some]
          rw [tailOffset_block (by omega) (by omega), Option.bind_some]
          have hfour : ((4 : ℕ) : ℤ) = 4 := rfl
          rw [hfour, shiftTail_widened hlarge (by omega), Option.bind_some, hmove, Option.bind_some, hstore,
            Option.bind_some, hrun, layout_cons, lastOffset_cons cur (List.cons_ne_nil _ _),
            ← Nat.add_assoc, List.append_assoc (pre ++ cur.bytes prev)]
        · rw [List.map_cons, htexts, List.map_cons]
      · have hkeeps : next.Ok cur.rawlen := by
          refine ⟨?_, hword, hnext.short⟩
          intro hlarge
          have hnarrow : wide cur.rawlen = false := by simpa [hlarge] using hgrow
          simpa [wide] using hnarrow
        have hroom : ¬ next.prevSize < prevlenSize cur.rawlen := by
          rw [prevlenSize_eq cur.rawlen []]
          unfold Entry.prevSize
          cases hlarge : next.large <;> cases hwide : wide cur.rawlen <;> simp_all
        refine ⟨next :: more, ?_, ⟨hkeeps, hmore⟩, rfl⟩
        rw [if_neg hroom, ← List.append_assoc,
          rewrite_entry (by rw [List.length_append, bytes_length, Nat.add_assoc]), layout_cons,
          lastOffset_cons cur (List.cons_ne_nil _ _), ← Nat.add_assoc,
          List.append_assoc (pre ++ cur.bytes prev)]

end

/-! ### Making room for an entry -/

section

variable {pre L slot : Buf} {first first' : Entry} {off count : ℤ} {junk : ℕ → UInt8}
  {prev reqlen p : ℕ}

/- What an entry becomes when one of `reqlen` bytes comes before it: it keeps five bytes for the
length if four of them could not be given back. -/
def Entry.behind (e : Entry) (reqlen : ℕ) : Entry := ⟨wide reqlen || e.large && reqlen < 4, e.text⟩

/- By how much an entry gets longer. -/
def diff (first first' : Entry) : ℤ := (first'.prevSize : ℤ) - first.prevSize

theorem rawlen_diff (h : first'.text = first.text) :
    (first'.rawlen : ℤ) = first.rawlen + diff first first' := by
  have hcontent : first'.content = first.content := by rw [Entry.content, Entry.content, h]
  rw [rawlen_eq, rawlen_eq, hcontent, diff]
  omega

theorem behind_ok (hword : reqlen < 2 ^ 32) (hshort : first.text.length < 2 ^ 32) :
    (first.behind reqlen).Ok reqlen := by
  refine ⟨?_, hword, hshort⟩
  intro hlarge
  have hnarrow : wide reqlen = false := by
    simp only [Entry.behind, Bool.or_eq_false_iff] at hlarge
    exact hlarge.1
  simpa [wide] using hnarrow

theorem nextDiff_spec (hfirst : first.Ok prev) (hp : p = 10 + pre.length) :
    ∃ force, nextDiff (block (pre ++ first.bytes prev ++ L) off count) p reqlen =
        some (diff first (first.behind reqlen), force) ∧
      (if force then prevlenBytesLarge reqlen else prevlenBytes reqlen) =
        (first.behind reqlen).prevField reqlen ∧
      (diff first (first.behind reqlen) = -4 → 4 ≤ reqlen) := by
  obtain ⟨byte, hbyte, hne⟩ := @byteAt_block pre L off count first prev p hfirst hp
  unfold nextDiff prevLenByteDiff
  simp only [hbyte, Option.bind_eq_bind, Option.bind_some, decodePrevlensize_block hfirst hp]
  rw [if_pos hne, Option.map_some, Option.bind_some]
  by_cases hforce : (prevlenSize reqlen : ℤ) - first.prevSize = -4 ∧ reqlen < 4
  · -- Four bytes less for this entry would be more than the new one needs.
    obtain ⟨hless, hfour⟩ := hforce
    have hlarge : first.large = true := by
      unfold Entry.prevSize prevlenSize at hless
      cases hlarge : first.large with
      | true => rfl
      | false =>
        rw [hlarge] at hless
        split at hless <;> simp at hless
    have hbehind : first.behind reqlen = ⟨true, first.text⟩ := by
      simp [Entry.behind, hlarge, hfour]
    refine ⟨true, ?_, ?_, ?_⟩
    · rw [if_pos ⟨hless, hfour⟩, hbehind, diff, Entry.prevSize, Entry.prevSize, hlarge]
      rfl
    · rw [hbehind]
      rfl
    · rw [hbehind, diff, Entry.prevSize, Entry.prevSize, hlarge]
      intro hfalse
      simp at hfalse
  · have hbehind : first.behind reqlen = ⟨wide reqlen, first.text⟩ := by
      unfold Entry.behind
      congr 1
      cases hlarge : first.large with
      | false => simp
      | true =>
        cases hwide : wide reqlen with
        | true => rfl
        | false =>
          have hone : prevlenSize reqlen = 1 := by rw [prevlenSize_eq reqlen [], hwide]; rfl
          have hfive : first.prevSize = 5 := by rw [Entry.prevSize, hlarge]; rfl
          rw [hone, hfive] at hforce
          simpa using hforce
    refine ⟨false, ?_, ?_, ?_⟩
    · rw [if_neg hforce, hbehind, diff, prevlenSize_eq reqlen first.text]
    · rw [hbehind, prevlenBytes_eq reqlen first.text]
      rfl
    · rw [hbehind, diff, ← prevlenSize_eq]
      intro hless
      exact Nat.not_lt.mp fun hfour => hforce ⟨hless, hfour⟩

/-- The entries behind the new one are moved up, to where there is room for the new length. -/
theorem move_up {n dst src : ℕ} (hslot : (slot.length : ℤ) = reqlen + diff first first')
    (hdst : dst = 10 + pre.length + reqlen)
    (hsrc : (src : ℤ) = 10 + pre.length - diff first first')
    (hn : (n : ℤ) = first.rawlen + L.length + diff first first') :
    ∃ gap field, move (block (pre ++ first.bytes prev ++ L ++ slot) off count) dst src n =
        some (block (pre ++ gap ++ field ++ (first.content ++ L)) off count) ∧
      gap.length = reqlen ∧ field.length = first'.prevSize := by
  have hrawlen := rawlen_eq first
  unfold diff at hslot hsrc hn
  by_cases hsame : first'.prevSize = first.prevSize
  · have hregroup : pre ++ first.bytes prev ++ L ++ slot = pre ++ (first.bytes prev ++ L) ++ slot := by
      simp only [List.append_assoc]
    obtain ⟨gap, hmove, hgap⟩ := @move_block pre (first.bytes prev ++ L) slot off count src dst n
      (by omega) (by rw [List.length_append, bytes_length]; omega) (by omega)
    refine ⟨gap, first.prevField prev, ?_, by omega, by rw [prevField_length, hsame]⟩
    rw [hregroup, hmove, bytes_eq]
    simp only [List.append_assoc]
  · by_cases hlarge : first.large = true
    · -- One byte of the five stays.
      have hfive : first.prevSize = 5 := by rw [Entry.prevSize, hlarge]; rfl
      have hone : first'.prevSize = 1 := by
        unfold Entry.prevSize at hsame ⊢
        cases hl : first'.large <;> simp_all
      have hfield := prevField_length first prev
      obtain ⟨four, one, hcut, hlen4, hlen1⟩ : ∃ four one, first.prevField prev = four ++ one ∧
          four.length = 4 ∧ one.length = 1 := by
        refine ⟨_, _, (List.take_append_drop 4 _).symm, ?_, ?_⟩
        · rw [List.length_take]
          omega
        · rw [List.length_drop]
          omega
      have hregroup : pre ++ first.bytes prev ++ L ++ slot =
          (pre ++ four) ++ (one ++ (first.content ++ L)) ++ slot := by
        simp only [bytes_eq, hcut, List.append_assoc]
      obtain ⟨gap, hmove, hgap⟩ := @move_block (pre ++ four) (one ++ (first.content ++ L)) slot off count src
        dst n (by rw [List.length_append]; omega)
        (by simp only [List.length_append]; omega) (by rw [List.length_append]; omega)
      refine ⟨four ++ gap, one, ?_, by rw [List.length_append]; omega, by rw [hone, hlen1]⟩
      rw [hregroup, hmove]
      simp only [List.append_assoc]
    · have hone : first.prevSize = 1 := by
        rw [Entry.prevSize, if_neg hlarge]
      have hfive : first'.prevSize = 5 := by
        unfold Entry.prevSize at hsame ⊢
        cases hl : first'.large <;> simp_all
      have hregroup : pre ++ first.bytes prev ++ L ++ slot = pre ++ (first.bytes prev ++ L) ++ slot := by
        simp only [List.append_assoc]
      obtain ⟨gap, four, hmove, hgap, hlen4⟩ := @moveApart_block pre (first.bytes prev ++ L) slot off count
        dst src n (by omega) (by rw [List.length_append, bytes_length]; omega) (by omega) (by omega)
      refine ⟨gap, four ++ first.prevField prev, ?_, by omega, by
        rw [List.length_append, prevField_length]; omega⟩
      rw [hregroup, hmove, bytes_eq]
      simp only [List.append_assoc]

/- An entry that gets shorter had five bytes to spare. -/
theorem diff_range (first first' : Entry) :
    diff first first' = 0 ∨ diff first first' = 4 ∨ diff first first' = -4 ∧ 5 ≤ first.rawlen := by
  have hrawlen := rawlen_eq first
  unfold diff Entry.prevSize
  unfold Entry.prevSize at hrawlen
  cases hlarge : first.large <;> cases hlarge' : first'.large <;> simp only [hlarge] at hrawlen <;> simp
  simp at hrawlen
  omega

/- The last entry is moved with the entry that gets longer, if it is another one. -/
theorem lastOffset_diff {more : List Entry} (h : first'.text = first.text) :
    (lastOffset (first' :: more) : ℤ) =
      if more = [] then (lastOffset (first :: more) : ℤ) else lastOffset (first :: more) + diff first first' := by
  cases more with
  | nil => rfl
  | cons f fs =>
    have hdiff := rawlen_diff h
    rw [lastOffset_cons _ (List.cons_ne_nil _ _), lastOffset_cons _ (List.cons_ne_nil _ _),
      if_neg (List.cons_ne_nil _ _)]
    push_cast
    omega

/- The tail offset after an entry has got longer, as it is decided by the byte behind the entry. -/
theorem tail_diff {more : List Entry} {after : ℕ} {tail n : ℤ} (htext : first'.text = first.text)
    (hlast : after = ZIP_END ↔ more = []) (htail : tail = n + lastOffset (first :: more)) :
    (if decide (after ≠ ZIP_END) = true then tail + diff first first' else tail) =
      n + lastOffset (first' :: more) := by
  have hoffset := @lastOffset_diff first first' more htext
  by_cases hend : more = []
  · rw [if_neg (by simp [hlast, hend])]
    rw [if_pos hend] at hoffset
    omega
  · rw [if_pos (by simp [hlast, hend])]
    rw [if_neg hend] at hoffset
    omega

/- Whether an entry is the last one is seen by the byte behind it. -/
theorem byteAt_after {more : List Entry} {len q : ℕ} {e : Entry} (hmore : Chained len more)
    (hq : q = 10 + (pre.length + e.rawlen)) :
    ∃ after, byteAt (block (pre ++ e.bytes prev ++ layout len more) off count) q = some after ∧
      (after = ZIP_END ↔ more = []) := by
  cases more with
  | nil =>
    refine ⟨ZIP_END, ?_, by simp⟩
    exact byteAt_end (by simp [hq])
  | cons f fs =>
    obtain ⟨after, hafter, hne⟩ := @byteAt_block (pre ++ e.bytes prev) (layout f.rawlen fs) off count f len q
      hmore.1 (by rw [List.length_append, bytes_length, hq])
    rw [List.append_assoc (pre ++ e.bytes prev)] at hafter
    exact ⟨after, hafter, by simp [hne]⟩

/-- Room for an entry of `reqlen` bytes is made in front of `first`. -/
theorem openGap_spec {more : List Entry} {force : Bool} {n : ℕ} (hfirst : first.Ok prev)
    (hfirst' : first'.Ok reqlen) (htext : first'.text = first.text) (hmore : Chained first.rawlen more)
    (hslot : (slot.length : ℤ) = reqlen + diff first first')
    (hfield : (if force then prevlenBytesLarge reqlen else prevlenBytes reqlen) = first'.prevField reqlen)
    (hsmall : 10 + n + lastOffset (first :: more) + reqlen < 2 ^ 32) :
    ∃ gap, gap.length = reqlen ∧
      openGap (block (pre ++ first.bytes prev ++ layout first.rawlen more ++ slot)
          (n + lastOffset (first :: more) : ℕ) count) (10 + pre.length)
          (11 + (pre.length + first.rawlen + size more)) reqlen (diff first first') force =
        some (block (pre ++ gap ++ first'.bytes reqlen ++ layout first.rawlen more)
          (n + reqlen + lastOffset (first' :: more) : ℕ) count) := by
  obtain ⟨byte, hbyte, hne⟩ := @byteAt_block pre (layout first.rawlen more ++ slot)
    (n + lastOffset (first :: more) : ℕ) count first prev (10 + pre.length) hfirst rfl
  rw [← List.append_assoc (pre ++ first.bytes prev)] at hbyte
  have hrawlen := rawlen_eq first
  have hrange := diff_range first first'
  obtain ⟨gap, field, hmove, hgap, hlen⟩ := @move_up pre (layout first.rawlen more) slot first first'
    (n + lastOffset (first :: more) : ℕ) count prev reqlen
    ((11 + (pre.length + first.rawlen + size more) : ℕ) - (10 + pre.length : ℕ) - 1 + diff first first' : ℤ).toNat
    (10 + pre.length + reqlen) (((10 + pre.length : ℕ) : ℤ) - diff first first').toNat hslot rfl
    (by omega) (by rw [layout_length]; omega)
  refine ⟨gap, hgap, ?_⟩
  have hplace : 10 + pre.length + reqlen = 10 + (pre ++ gap).length := by
    rw [List.length_append, hgap, Nat.add_assoc]
  have hcontent : first'.content = first.content := by rw [Entry.content, Entry.content, htext]
  have hstore : store (block (pre ++ gap ++ field ++ (first.content ++ layout first.rawlen more))
      (n + lastOffset (first :: more) : ℕ) count) (10 + pre.length + reqlen) (first'.prevField reqlen) =
      some (block (pre ++ gap ++ first'.bytes reqlen ++ layout first.rawlen more)
        (n + lastOffset (first :: more) : ℕ) count) := by
    rw [store_block hplace (by rw [prevField_length, hlen]), bytes_eq, hcontent]
    simp only [List.append_assoc]
  unfold openGap
  simp only [hbyte, Option.bind_eq_bind, Option.bind_some]
  rw [if_pos hne, hmove, Option.bind_some, hfield, hstore, Option.bind_some,
    shiftTail_block _ _ (by omega) (by omega), if_pos rfl, Option.bind_some,
    zipEntry_block hfirst' hplace, Option.bind_some, Nat.add_assoc (10 + pre.length + reqlen),
    zlentry_rawlen]
  obtain ⟨after, hafter, hlast⟩ : ∃ after, byteAt (block
      (pre ++ gap ++ first'.bytes reqlen ++ layout first.rawlen more)
      ((n + lastOffset (first :: more) : ℕ) + reqlen) count) (10 + pre.length + reqlen + first'.rawlen) =
      some after ∧ (after = ZIP_END ↔ more = []) :=
    byteAt_after hmore (by rw [List.length_append, hgap]; omega)
  rw [hafter, Option.bind_some, shiftTail_block _ _ (by omega) (by omega),
    @tail_diff first first' more after _ (n + reqlen) htext hlast (by push_cast; omega)]
  push_cast
  rfl

/-- The entries behind one that has changed its length learn about it. -/
theorem cascadeIf_spec {rest : List Entry} (hfirst' : first'.Ok prev) (htext : first'.text = first.text)
    (hrest : Chained first.rawlen rest)
    (hsmall : 11 + pre.length + first'.rawlen + weight (rest.map Entry.text) < 2 ^ 32) :
    ∃ rest', cascadeIf (block (pre ++ first'.bytes prev ++ layout first.rawlen rest)
          (pre.length + lastOffset (first' :: rest) : ℕ) count) (10 + pre.length) (diff first first') junk =
        some (block (pre ++ first'.bytes prev ++ layout first'.rawlen rest')
          (pre.length + lastOffset (first' :: rest') : ℕ) count) ∧
      Chained first'.rawlen rest' ∧ rest'.map Entry.text = rest.map Entry.text := by
  have hrawlen := rawlen_diff htext
  have hsize := size_le_weight rest
  unfold cascadeIf
  by_cases hzero : diff first first' = 0
  · have hsame : first'.rawlen = first.rawlen := by omega
    rw [if_neg (not_not.mpr hzero), hsame]
    exact ⟨rest, rfl, hrest, rfl⟩
  · have hlength : (pre ++ first'.bytes prev ++ layout first.rawlen rest).length =
        pre.length + first'.rawlen + size rest := by
      simp [Nat.add_assoc]
    have hfew := length_le_size rest
    rw [if_pos hzero, bytes_block (by rw [hlength]; omega), Option.bind_some, block_length, hlength]
    exact cascadeUpdate_spec rest pre first' prev first.rawlen _ hfirst' hrest (by omega) hsmall

/-- The new entry is written into the gap. -/
theorem write_entry {e : Entry} {gap : Buf} (hgap : gap.length = e.rawlen) :
    ((store (block (pre ++ gap ++ L) off count) (10 + pre.length) (e.prevField prev)).bind fun zl =>
      (store zl (10 + pre.length + e.prevSize) (header e.text)).bind fun zl =>
        store zl (10 + pre.length + e.prevSize + (header e.text).length) (payload e.text)) =
      some (block (pre ++ e.bytes prev ++ L) off count) := by
  obtain ⟨field, rest, hcut, hfield, hrest⟩ : ∃ field rest, gap = field ++ rest ∧
      field.length = e.prevSize ∧ rest.length = (header e.text).length + (payload e.text).length := by
    unfold Entry.rawlen at hgap
    refine ⟨_, _, (List.take_append_drop e.prevSize _).symm, ?_, ?_⟩
    · rw [List.length_take]
      omega
    · rw [List.length_drop]
      omega
  obtain ⟨head, tail, hcut', hhead, htail⟩ : ∃ head tail, rest = head ++ tail ∧
      head.length = (header e.text).length ∧ tail.length = (payload e.text).length := by
    refine ⟨_, _, (List.take_append_drop (header e.text).length _).symm, ?_, ?_⟩
    · rw [List.length_take]
      omega
    · rw [List.length_drop]
      omega
  have hsplit : pre ++ gap ++ L = pre ++ field ++ (head ++ tail ++ L) := by
    simp only [hcut, hcut', List.append_assoc]
  have hsplit' : pre ++ e.prevField prev ++ (head ++ tail ++ L) =
      (pre ++ e.prevField prev) ++ head ++ (tail ++ L) := by
    simp only [List.append_assoc]
  have hsplit'' : pre ++ e.prevField prev ++ header e.text ++ (tail ++ L) =
      (pre ++ e.prevField prev ++ header e.text) ++ tail ++ L := by
    simp only [List.append_assoc]
  rw [hsplit, store_block rfl (by rw [prevField_length, hfield]), Option.bind_some, hsplit',
    store_block (by rw [List.length_append, prevField_length, Nat.add_assoc]) hhead.symm, Option.bind_some,
    hsplit'', store_block (by simp only [List.length_append, prevField_length]; omega) htail.symm]
  simp only [Entry.bytes, List.append_assoc]

end

/-! ### Inserting -/

theorem Holds.size_lt {zl : Buf} {es : List Entry} (h : Holds zl es) : 11 + size es < 2 ^ 32 :=
  Nat.lt_of_le_of_lt (Nat.add_le_add_left (size_le_weight es) 11) h.small

/-- The length of the entry before a position. -/
theorem prevlenAt_spec {zl : Buf} {pre post : List Entry} (h : Holds zl (pre ++ post)) :
    prevlenAt zl (10 + size pre) = some (lastLen 0 pre) := by
  have hlt := h.size_lt
  have hchained := (chained_append 0 pre post).mp h.chained
  rw [h.shape]
  cases post with
  | cons first more =>
    rw [layout_append, layout_cons, ← List.append_assoc]
    have hplace : 10 + size pre = 10 + (layout 0 pre).length := by rw [layout_length]
    obtain ⟨byte, hbyte, hne⟩ := @byteAt_block (layout 0 pre) (layout first.rawlen more)
      (lastOffset (pre ++ first :: more)) (pre ++ first :: more).length first (lastLen 0 pre) _ hchained.2.1 hplace
    unfold prevlenAt
    simp only [hbyte, Option.bind_eq_bind, Option.bind_some]
    rw [if_pos hne, decodePrevlen_block hchained.2.1 hplace]
    rfl
  | nil =>
    rw [List.append_nil] at hlt ⊢
    have hle := lastOffset_le pre
    unfold prevlenAt
    rw [byteAt_end (by rw [layout_length]), Option.bind_eq_bind, Option.bind_some, if_neg (by simp),
      tailOffset_block (by omega) (by omega), Option.bind_some]
    rcases List.eq_nil_or_concat' pre with rfl | ⟨init, last, rfl⟩
    · rw [byteAt_end (by rfl), Option.bind_some, if_neg (by simp)]
      rfl
    · have hplace : (10 + ((lastOffset (init ++ [last]) : ℕ) : ℤ)).toNat = 10 + (layout 0 init).length := by
        rw [lastOffset_append init (List.cons_ne_nil _ _), layout_length]
        simp only [lastOffset]
        omega
      have hlast := ((chained_append 0 init [last]).mp hchained.1).2.1
      obtain ⟨byte, hbyte, hne⟩ := @byteAt_block (layout 0 init) [] (lastOffset (init ++ [last]))
        (init ++ [last]).length last (lastLen 0 init) _ hlast hplace
      have hlayout : layout 0 (init ++ [last]) = layout 0 init ++ last.bytes (lastLen 0 init) ++ [] := by
        rw [layout_append, layout_cons, layout_nil, List.append_assoc]
      rw [hlayout, hbyte, Option.bind_some, if_pos hne,
        rawEntryLength_block hlast hplace, lastLen_append]
      rfl

section

variable {zl : Buf} {pre post : List Entry} {junk : ℕ → UInt8} {reqlen : ℕ}

/- A list with a gap, which an entry of the length of the gap fits into. -/
structure Gap (pre post : List Entry) (reqlen : ℕ) (count : ℤ) (zl : Buf) (post' : List Entry) : Prop where
  shape : ∃ gap : Buf, gap.length = reqlen ∧ zl = block (layout 0 pre ++ gap ++ layout reqlen post')
    (size pre + if post' = [] then 0 else reqlen + lastOffset post' : ℕ) count
  chained : Chained reqlen post'
  texts : post'.map Entry.text = post.map Entry.text

/-- At the end of the list only the block gets longer. -/
theorem gap_at_end (h : Holds zl pre) (hpos : 0 < reqlen) (hsmall : 11 + size pre + reqlen < 2 ^ 32) :
    ∃ zl', nextDiff zl (10 + size pre) reqlen = some (0, false) ∧
      (resize zl (((11 + size pre : ℕ) : ℤ) + reqlen + 0).toNat junk).bind (fun zl =>
        (openGap zl (10 + size pre) (11 + size pre) reqlen 0 false).bind fun zl =>
          cascadeIf zl (10 + size pre + reqlen) 0 junk) = some zl' ∧
      Gap pre [] reqlen pre.length zl' [] := by
  rw [h.shape]
  obtain ⟨slot, hresize, hslot, hstart⟩ :=
    resize_block_grow (layout 0 pre) (lastOffset pre) pre.length reqlen junk (by rw [layout_length]; omega)
  obtain ⟨bs, rfl⟩ := hstart hpos
  have hlen : (((11 + size pre : ℕ) : ℤ) + reqlen + 0).toNat = 11 + (layout 0 pre).length + reqlen := by
    rw [layout_length]
    omega
  have hbyte : byteAt (block (layout 0 pre ++ endByte :: bs) (lastOffset pre) pre.length)
      (10 + size pre) = some ZIP_END := by
    have hsplit : block (layout 0 pre ++ endByte :: bs) (lastOffset pre) pre.length =
        (headerBytes (11 + (layout 0 pre ++ endByte :: bs).length) (10 + (lastOffset pre : ℤ)) pre.length ++
          layout 0 pre) ++ endByte :: (bs ++ [endByte]) := by
      simp only [block, List.append_assoc, List.cons_append]
    rw [hsplit]
    exact byteAt_append (by simp) endByte
  have htail : ((10 + size pre : ℕ) : ℤ) = 10 + (size pre : ℤ) := by push_cast; rfl
  refine ⟨block (layout 0 pre ++ endByte :: bs) (size pre : ℕ) pre.length, ?_, ?_, ?_⟩
  · unfold nextDiff
    rw [byteAt_end (by rw [layout_length]), Option.bind_eq_bind, Option.bind_some, if_neg (by simp)]
  · rw [hlen, hresize, Option.bind_some, openGap, hbyte, Option.bind_eq_bind, Option.bind_some,
      if_neg (by simp), htail, setTailOffset_block, Option.bind_some]
    rfl
  · exact ⟨⟨endByte :: bs, hslot, by simp⟩, trivial, rfl⟩

/-- Between entries those behind are moved, and the first of them made to fit. -/
theorem gap_before {first : Entry} {more : List Entry} (h : Holds zl (pre ++ first :: more))
    (hsmall : 11 + size pre + reqlen + weight ((first :: more).map Entry.text) < 2 ^ 32) :
    ∃ d force zl' post', nextDiff zl (10 + size pre) reqlen = some (d, force) ∧
      (resize zl (((11 + size (pre ++ first :: more) : ℕ) : ℤ) + reqlen + d).toNat junk).bind (fun zl =>
        (openGap zl (10 + size pre) (11 + size (pre ++ first :: more)) reqlen d force).bind fun zl =>
          cascadeIf zl (10 + size pre + reqlen) d junk) = some zl' ∧
      Gap pre (first :: more) reqlen (pre ++ first :: more).length zl' post' := by
  obtain ⟨-, hfirst, hmore⟩ := (chained_append 0 pre (first :: more)).mp h.chained
  have hplace : 10 + size pre = 10 + (layout 0 pre).length := by rw [layout_length]
  have hweight := size_le_weight more
  have hle := rawlen_le first
  have hle' : (first.behind reqlen).rawlen ≤ first.text.length + 18 := rawlen_le _
  have hoff := lastOffset_le (first :: more)
  rw [size_cons] at hoff
  rw [List.map_cons, weight_cons] at hsmall
  have hok : (first.behind reqlen).Ok reqlen := behind_ok (by omega) hfirst.short
  have hshape : zl = block (layout 0 pre ++ first.bytes (lastLen 0 pre) ++ layout first.rawlen more)
      (size pre + lastOffset (first :: more) : ℕ) (pre ++ first :: more).length := by
    rw [h.shape, layout_append, layout_cons, ← List.append_assoc,
      lastOffset_append pre (List.cons_ne_nil _ _)]
  generalize ((pre ++ first :: more).length : ℤ) = count at hshape ⊢
  obtain ⟨force, hdiff, hfield, hfour⟩ := @nextDiff_spec (layout 0 pre) (layout first.rawlen more) first
    (size pre + lastOffset (first :: more) : ℕ) count (lastLen 0 pre) reqlen _ hfirst hplace
  have hrange := diff_range first (first.behind reqlen)
  have hrawlen := @rawlen_diff first (first.behind reqlen) rfl
  have hlength : (layout 0 pre ++ first.bytes (lastLen 0 pre) ++ layout first.rawlen more).length =
      size pre + first.rawlen + size more := by
    simp [Nat.add_assoc]
  obtain ⟨slot, hresize, hslot, -⟩ := resize_block_grow
    (layout 0 pre ++ first.bytes (lastLen 0 pre) ++ layout first.rawlen more)
    (size pre + lastOffset (first :: more) : ℕ) count ((reqlen : ℤ) + diff first (first.behind reqlen)).toNat junk
    (by rw [hlength]; omega)
  obtain ⟨gap, hgap, hopen⟩ := @openGap_spec (layout 0 pre) slot first (first.behind reqlen) count
    (lastLen 0 pre) reqlen more force (size pre) hfirst hok rfl hmore (by omega) hfield (by omega)
  have hopened : (layout 0 pre ++ gap).length = size pre + reqlen := by
    rw [List.length_append, layout_length, hgap]
  obtain ⟨more', hcascade, hchained, htexts⟩ := @cascadeIf_spec (layout 0 pre ++ gap) first
    (first.behind reqlen) count junk reqlen more hok rfl hmore (by rw [hopened]; omega)
  rw [hopened, ← Nat.add_assoc] at hcascade
  rw [layout_length] at hopen
  have hlen : (((11 + size (pre ++ first :: more) : ℕ) : ℤ) + reqlen +
      diff first (first.behind reqlen)).toNat =
      11 + (layout 0 pre ++ first.bytes (lastLen 0 pre) ++ layout first.rawlen more).length +
        ((reqlen : ℤ) + diff first (first.behind reqlen)).toNat := by
    rw [hlength, size_append, size_cons]
    omega
  have htotal : 11 + size (pre ++ first :: more) = 11 + (size pre + first.rawlen + size more) := by
    rw [size_append, size_cons]
    omega
  refine ⟨diff first (first.behind reqlen), force, block (layout 0 pre ++ gap ++
    (first.behind reqlen).bytes reqlen ++ layout (first.behind reqlen).rawlen more')
    (size pre + reqlen + lastOffset (first.behind reqlen :: more') : ℕ) count,
    first.behind reqlen :: more', by rw [hshape]; exact hdiff, ?_, ?_⟩
  · rw [hlen, hshape, hresize, Option.bind_some, htotal, hopen, Option.bind_some, hcascade]
  · refine ⟨⟨gap, hgap, ?_⟩, ⟨hok, hchained⟩, ?_⟩
    · rw [if_neg (List.cons_ne_nil _ _), layout_cons, ← List.append_assoc, Nat.add_assoc]
    · rw [List.map_cons, htexts, List.map_cons]
      rfl

theorem gap_spec (h : Holds zl (pre ++ post)) (hpos : 0 < reqlen)
    (hsmall : 11 + size pre + reqlen + weight (post.map Entry.text) < 2 ^ 32) :
    ∃ d force zl' post', nextDiff zl (10 + size pre) reqlen = some (d, force) ∧
      (resize zl (((11 + size (pre ++ post) : ℕ) : ℤ) + reqlen + d).toNat junk).bind (fun zl =>
        (openGap zl (10 + size pre) (11 + size (pre ++ post)) reqlen d force).bind fun zl =>
          cascadeIf zl (10 + size pre + reqlen) d junk) = some zl' ∧
      Gap pre post reqlen (pre ++ post).length zl' post' := by
  cases post with
  | nil =>
    rw [List.append_nil] at h ⊢
    obtain ⟨zl', hdiff, hrun, hgap⟩ := @gap_at_end zl pre junk reqlen h hpos
      (Nat.lt_of_le_of_lt (Nat.le_add_right _ _) hsmall)
    exact ⟨0, false, zl', [], hdiff, hrun, hgap⟩
  | cons first more => exact gap_before h hsmall

/-- An insertion puts the text between the entries before the position and those behind it. -/
theorem Holds.insert {s : Str} (h : Holds zl (pre ++ post)) (hfew : (pre ++ post).length + 1 < UINT16_MAX)
    (hsmall : 11 + weight (pre.map Entry.text ++ s :: post.map Entry.text) < 2 ^ 32) :
    ∃ zl' new post', insert zl (10 + size pre) s junk = some zl' ∧ Holds zl' (pre ++ new :: post') ∧
      new.text = s ∧ post'.map Entry.text = post.map Entry.text := by
  have hlt := h.size_lt
  have hpre := size_le_weight pre
  rw [weight_append, weight_cons] at hsmall
  have hplen : lastLen 0 pre < 2 ^ 32 := by
    have hle := lastLen_le pre
    rw [size_append] at hlt
    omega
  set new : Entry := ⟨wide (lastLen 0 pre), s⟩ with hnew
  have hok : new.Ok (lastLen 0 pre) := ok_wide hplen (by omega)
  have hrawlen : new.rawlen ≤ s.length + 18 := rawlen_le new
  have hpos := rawlen_pos new
  obtain ⟨d, force, zl', post', hdiff, hrun, hgap⟩ := @gap_spec zl pre post junk new.rawlen h (by omega) (by omega)
  obtain ⟨⟨gap, hlen, rfl⟩, hchained, htexts⟩ := hgap
  have hbytes : Ziplist.bytes zl = some (11 + size (pre ++ post)) := by
    rw [h.shape, bytes_block (by rw [layout_length]; exact hlt), layout_length]
  have hreq : (payload s).length + prevlenSize (lastLen 0 pre) + (header s).length = new.rawlen := by
    have htext : new.text = s := rfl
    rw [prevlenSize_eq _ s, ← hnew, Entry.rawlen, htext]
    omega
  have hsame := length_of_texts htexts
  have hcount : (((pre ++ post).length : ℕ) : ℤ) + 1 = ((pre ++ new :: post').length : ℕ) := by
    simp only [List.length_append, List.length_cons, hsame]
    omega
  have hlayout : layout 0 (pre ++ new :: post') =
      layout 0 pre ++ new.bytes (lastLen 0 pre) ++ layout new.rawlen post' := by
    rw [layout_append, layout_cons, List.append_assoc]
  have hoffset : lastOffset (pre ++ new :: post') =
      size pre + if post' = [] then 0 else new.rawlen + lastOffset post' := by
    rw [lastOffset_append pre (List.cons_ne_nil _ _)]
    split
    · rename_i hnil
      rw [hnil]
      rfl
    · rename_i hnil
      rw [lastOffset_cons new hnil]
  refine ⟨block (layout 0 (pre ++ new :: post')) (lastOffset (pre ++ new :: post'))
    (pre ++ new :: post').length, new, post', ?_, ⟨rfl, ?_, ?_, ?_⟩, rfl, htexts⟩
  · -- The steps of the insertion one after the other.
    obtain ⟨zl₁, hresize, hrun⟩ := Option.bind_eq_some_iff.mp hrun
    obtain ⟨zl₂, hopen, hcascade⟩ := Option.bind_eq_some_iff.mp hrun
    have hwrite := @write_entry (layout 0 pre) (layout new.rawlen post')
      (size pre + if post' = [] then 0 else new.rawlen + lastOffset post' : ℕ) (pre ++ post).length
      (lastLen 0 pre) new gap hlen
    rw [layout_length] at hwrite
    obtain ⟨zl₃, hfield, hwrite⟩ := Option.bind_eq_some_iff.mp hwrite
    obtain ⟨zl₄, hheader, hpayload⟩ := Option.bind_eq_some_iff.mp hwrite
    rw [← prevlenBytes_eq _ s] at hfield
    unfold Ziplist.insert
    simp only [hbytes, Option.bind_eq_bind, Option.bind_some, prevlenAt_spec h, contentBytes_eq, hreq, hdiff,
      hresize, hopen, hcascade, hfield]
    rw [prevlenSize_eq _ s, ← hnew]
    change (store zl₃ (10 + size pre + new.prevSize) (header new.text)).bind _ = _
    rw [hheader, Option.bind_some]
    change (store zl₄ (10 + size pre + new.prevSize + (header new.text).length) (payload new.text)).bind _ = _
    rw [hpayload, Option.bind_some]
    rw [incrLength_block 1 (by omega) (by omega), hcount, hlayout, hoffset]
  · exact (chained_append 0 pre (new :: post')).mpr
      ⟨((chained_append 0 pre post).mp h.chained).1, hok, hchained⟩
  · rw [List.length_append, List.length_cons, hsame, ← Nat.add_assoc, ← List.length_append]
    exact hfew
  · rw [List.map_append, List.map_cons, htexts, weight_append, weight_cons]
    exact hsmall

end

end NodeServer.Redis.Ziplist

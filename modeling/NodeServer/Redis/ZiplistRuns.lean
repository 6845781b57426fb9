import NodeServer.Redis.ZiplistReads

/-! # Ziplists refine lists of texts -/

namespace NodeServer.Redis

open Bytes Ziplist

inductive ZiplistOp where
  | push (atHead : Bool) (s : Str)
  | insert (i : ℤ) (s : Str)
  | deleteRange (i : ℤ) (num : ℕ)
  | get (i : ℤ)
  /- The entry that is found and all behind it. -/
  | find (s : Str) (skip : ℕ)
  /- The entry behind the one that is found, as `hashTypeGetFromZiplist` looks a field up. -/
  | findNext (s : Str) (skip : ℕ)
  | len
deriving DecidableEq

inductive ZiplistAnswer where
  | text (s : Option Str)
  | texts (ts : Option (List Str))
  | count (n : ℕ)
  | done
deriving DecidableEq

namespace ZiplistOp

/- `ziplistFind` from the head on, as `hashTypeGetFromZiplist` (t_hash.c:68-71) calls it. -/
def search (zl : Buf) (s : Str) (skip : ℕ) : Option (Option ℕ) :=
  (index zl 0).bind fun p => match p with
    | none => some none
    | some p => Ziplist.find zl s skip zl.length p 0 none

/- The text at a position, if there is one. -/
def textIf (zl : Buf) (p : Option ℕ) : Option (Option Str) :=
  match p with
  | none => some none
  | some p => (textAt zl p).map some

/- The texts from a position on, if there is one. -/
def textsIf (zl : Buf) (p : Option ℕ) : Option (Option (List Str)) :=
  match p with
  | none => some none
  | some p => (walk (textAt zl) (next zl) zl.length (some p)).map some

def run (junk : ℕ → UInt8) : ZiplistOp → Buf → Option (Buf × ZiplistAnswer)
  | push atHead s, zl => (Ziplist.push zl s atHead junk).map fun zl => (zl, .done)
  | insert i s, zl => (index zl i).bind fun p => match p with
    | none => some (zl, .done)
    | some p => (Ziplist.insert zl p s junk).map fun zl => (zl, .done)
  | deleteRange i num, zl => (Ziplist.deleteRange zl i num junk).map fun zl => (zl, .done)
  | get i, zl => (index zl i).bind fun p => (textIf zl p).map fun t => (zl, .text t)
  | find s skip, zl => (search zl s skip).bind fun p => (textsIf zl p).map fun ts => (zl, .texts ts)
  | findNext s skip, zl => (search zl s skip).bind fun p => match p with
    | none => some (zl, .text none)
    | some p => (next zl p).bind fun p => (textIf zl p).map fun t => (zl, .text t)
  | len, zl => (Ziplist.len zl).map fun (zl, n) => (zl, .count n)

/- What the operation is for. -/
def apply : ZiplistOp → List Str → List Str × ZiplistAnswer
  | push atHead s, ts => (if atHead then s :: ts else ts ++ [s], .done)
  | insert i s, ts => match place ts.length i with
    | none => (ts, .done)
    | some j => (ts.take j ++ s :: ts.drop j, .done)
  | deleteRange i num, ts => match place ts.length i with
    | none => (ts, .done)
    | some j => (ts.take j ++ (ts.drop j).drop num, .done)
  | get i, ts => (ts, .text ((place ts.length i).bind fun j => ts[j]?))
  | find s skip, ts => (ts, .texts ((findText skip s 0 ts).map fun j => ts.drop j))
  | findNext s skip, ts => (ts, .text ((findText skip s 0 ts).bind fun j => ts[j + 1]?))
  | len, ts => (ts, .count ts.length)

def runs : List ((ℕ → UInt8) × ZiplistOp) → Buf → Option (Buf × List ZiplistAnswer)
  | [], zl => some (zl, [])
  | (junk, op) :: ops, zl => (op.run junk zl).bind fun (zl, answer) =>
    (runs ops zl).map fun (zl, answers) => (zl, answer :: answers)

def applies : List ZiplistOp → List Str → List Str × List ZiplistAnswer
  | [], ts => (ts, [])
  | op :: ops, ts =>
    let rest := applies ops (op.apply ts).1
    (rest.1, (op.apply ts).2 :: rest.2)

/- The texts it is called with are texts of bytes, and a negative index has a negation. -/
def Callable : ZiplistOp → Prop
  | push _ s => ByteText s
  | insert i s => ByteText s ∧ -2 ^ 31 < i
  | deleteRange i _ => -2 ^ 31 < i
  | get i => -2 ^ 31 < i
  | find s _ => ByteText s
  | findNext s _ => ByteText s
  | len => True

/- The fields of the header can count the entries and the bytes, after every operation. -/
def Countable : List ZiplistOp → List Str → Prop
  | [], _ => True
  | op :: ops, ts => ((op.apply ts).1.length < UINT16_MAX ∧ 11 + weight (op.apply ts).1 < 2 ^ 32) ∧
    Countable ops (op.apply ts).1

instance decidableCountable : ∀ ops ts, Decidable (Countable ops ts)
  | [], _ => .isTrue trivial
  | op :: ops, ts =>
    have := decidableCountable ops (op.apply ts).1
    inferInstanceAs (Decidable (_ ∧ _))

end ZiplistOp

/- The block is a list of these texts. -/
def Keeps (zl : Buf) (ts : List Str) : Prop :=
  ∃ es, Ziplist.Holds zl es ∧ es.map Entry.text = ts ∧ ∀ t ∈ ts, ByteText t

namespace ZiplistOp

variable {zl : Buf} {ts : List Str}

theorem keeps_new : Keeps Ziplist.new [] :=
  ⟨[], ⟨rfl, trivial, by decide, by decide⟩, rfl, by simp⟩

theorem findText_lt {skip : ℕ} {s : Str} : ∀ {ts : List Str} {cnt i : ℕ},
    findText skip s cnt ts = some i → i < ts.length := by
  intro ts
  induction ts with
  | nil =>
    intro cnt i h
    cases cnt <;> cases h
  | cons t ts ih =>
    intro cnt i h
    rw [List.length_cons]
    cases cnt with
    | zero =>
      rw [findText] at h
      split at h
      · cases h
        exact Nat.succ_pos _
      · obtain ⟨j, hj, rfl⟩ := Option.map_eq_some_iff.mp h
        exact Nat.succ_lt_succ (ih hj)
    | succ cnt =>
      rw [findText] at h
      obtain ⟨j, hj, rfl⟩ := Option.map_eq_some_iff.mp h
      exact Nat.succ_lt_succ (ih hj)

section

variable {es : List Entry} (h : Ziplist.Holds zl es) (htexts : ∀ e ∈ es, ByteText e.text)

include h htexts

theorem textIf_spec (i : ℕ) : textIf zl (position es i) = some (es.map Entry.text)[i]? := by
  by_cases hi : i < es.length
  · rw [position_of_lt hi, textIf, h.text_at htexts hi, Option.map_some, List.getElem?_map,
      List.getElem?_eq_getElem hi]
    rfl
  · rw [position_of_le (Nat.not_lt.mp hi), textIf, List.getElem?_eq_none (by rw [List.length_map]; omega)]

theorem textsIf_spec {i : ℕ} (hi : i < es.length) :
    textsIf zl (position es i) = some (some ((es.map Entry.text).drop i)) := by
  have hfuel := h.length_le
  have hwalk := h.walk_next (List.length_map Entry.text) (h.read_texts htexts) zl.length (i := i) (by omega)
  rw [position_of_lt hi] at hwalk ⊢
  rw [textsIf, hwalk, Option.map_some]

/-- The search finds the position of the first text of its kind. -/
theorem search_spec {s : Str} (hs : ByteText s) (skip : ℕ) :
    search zl s skip = some ((findText skip s 0 (es.map Entry.text)).bind (position es)) := by
  rw [search, show index zl 0 = _ from h.indexForward 0, Option.bind_some]
  by_cases hpos : 0 < es.length
  · have hfind := h.find skip htexts hs
    rw [ZIPLIST_HEADER_SIZE] at hfind
    rw [position_of_lt hpos, List.take_zero, size_nil, Nat.add_zero]
    dsimp only
    rw [hfind]
    cases hfound : findText skip s 0 (es.map Entry.text) with
    | none => rfl
    | some i =>
      have hi := findText_lt hfound
      rw [List.length_map] at hi
      rw [Option.map_some, Option.bind_some, position_of_lt hi]
  · rw [position_of_le (Nat.not_lt.mp hpos), List.length_eq_zero_iff.mp (Nat.eq_zero_of_not_pos hpos)]
    rfl

end

/-- An insertion at the position of an index, or at the end. -/
theorem insert_spec {pre post : List Entry} {s : Str} (junk : ℕ → UInt8) (h : Ziplist.Holds zl (pre ++ post))
    (hs : ByteText s) (hbytes : ∀ t ∈ (pre ++ post).map Entry.text, ByteText t)
    (hfew : (pre.map Entry.text ++ s :: post.map Entry.text).length < UINT16_MAX)
    (hsmall : 11 + weight (pre.map Entry.text ++ s :: post.map Entry.text) < 2 ^ 32) :
    ∃ zl', Ziplist.insert zl (10 + size pre) s junk = some zl' ∧
      Keeps zl' (pre.map Entry.text ++ s :: post.map Entry.text) := by
  have hfew' : (pre ++ post).length + 1 < UINT16_MAX := by
    simp only [List.length_append, List.length_cons, List.length_map] at hfew ⊢
    omega
  obtain ⟨zl', new, post', hinsert, hholds, hnew, hpost⟩ := @Ziplist.Holds.insert zl pre post junk s h hfew' hsmall
  refine ⟨zl', hinsert, pre ++ new :: post', hholds, ?_, ?_⟩
  · rw [List.map_append, List.map_cons, hnew, hpost]
  · intro t ht
    rw [List.map_append] at hbytes
    rcases List.mem_append.mp ht with ht | ht
    · exact hbytes t (List.mem_append_left _ ht)
    · rcases List.mem_cons.mp ht with rfl | ht
      · exact hs
      · exact hbytes t (List.mem_append_right _ ht)

/-- An entry is pushed at the head or at the tail. -/
theorem push_spec {es : List Entry} {s : Str} (junk : ℕ → UInt8) (atHead : Bool) (h : Ziplist.Holds zl es)
    (hs : ByteText s) (hbytes : ∀ t ∈ es.map Entry.text, ByteText t)
    (hfew : (if atHead then s :: es.map Entry.text else es.map Entry.text ++ [s]).length < UINT16_MAX)
    (hsmall : 11 + weight (if atHead then s :: es.map Entry.text else es.map Entry.text ++ [s]) < 2 ^ 32) :
    ∃ zl', Ziplist.push zl s atHead junk = some zl' ∧
      Keeps zl' (if atHead then s :: es.map Entry.text else es.map Entry.text ++ [s]) := by
  unfold Ziplist.push
  cases atHead with
  | true => exact @insert_spec zl [] es s junk h hs hbytes hfew hsmall
  | false =>
    have hsize := h.size_lt
    have hlen : Ziplist.bytes zl = some (11 + size es) := by
      rw [h.shape, bytes_block (by rw [layout_length]; exact hsize), layout_length]
    have hend : 11 + size es - 1 = 10 + size es := by omega
    rw [← List.append_nil es] at h
    rw [if_neg Bool.false_ne_true, hlen, Option.bind_some, hend]
    exact insert_spec junk h hs (by rw [List.append_nil]; exact hbytes) hfew hsmall

/-- Entries are deleted from the position of an index on. -/
theorem delete_spec {es : List Entry} {i : ℕ} (junk : ℕ → UInt8) (num : ℕ) (h : Ziplist.Holds zl es)
    (hbytes : ∀ t ∈ es.map Entry.text, ByteText t) (hi : i < es.length) :
    ∃ zl', Ziplist.delete zl (10 + size (es.take i)) num junk = some zl' ∧
      Keeps zl' ((es.map Entry.text).take i ++ ((es.map Entry.text).drop i).drop num) := by
  have hdrop : es.get ⟨i, hi⟩ :: es.drop (i + 1) = es.drop i := by
    rw [List.get_eq_getElem, List.cons_getElem_drop_succ]
  rw [← List.take_append_drop i es, ← hdrop] at h
  obtain ⟨zl', post', hdelete, hholds, hpost⟩ := @Ziplist.Holds.delete zl (es.take i) junk _ _ h num
  rw [hdrop, List.map_drop, List.map_drop] at hpost
  refine ⟨zl', hdelete, es.take i ++ post', hholds, ?_, ?_⟩
  · rw [List.map_append, hpost, List.map_take]
  · intro t ht
    rcases List.mem_append.mp ht with ht | ht
    · exact hbytes t (List.mem_of_mem_take ht)
    · exact hbytes t (List.mem_of_mem_drop (List.mem_of_mem_drop ht))

/-- One operation on the block is the operation on the list. -/
theorem run_spec (junk : ℕ → UInt8) (op : ZiplistOp) (h : Keeps zl ts) (hop : op.Callable)
    (hfew : (op.apply ts).1.length < UINT16_MAX) (hsmall : 11 + weight (op.apply ts).1 < 2 ^ 32) :
    ∃ zl', op.run junk zl = some (zl', (op.apply ts).2) ∧ Keeps zl' (op.apply ts).1 := by
  obtain ⟨es, hes, rfl, hbytes⟩ := h
  have htexts : ∀ e ∈ es, ByteText e.text := fun e he => hbytes _ (List.mem_map_of_mem he)
  have hlen : (es.map Entry.text).length = es.length := List.length_map _
  cases op with
  | push atHead s =>
    obtain ⟨zl', hpush, hkeeps⟩ := push_spec junk atHead hes hop hbytes hfew hsmall
    refine ⟨zl', ?_, hkeeps⟩
    rw [run, hpush, Option.map_some]
    rfl
  | insert i s =>
    rw [apply, hlen] at hfew hsmall ⊢
    rw [run, hes.index hop.2, Option.bind_some]
    cases hplace : place es.length i with
    | none => exact ⟨zl, rfl, es, hes, rfl, hbytes⟩
    | some j =>
      rw [hplace] at hfew hsmall
      dsimp only at hfew hsmall ⊢
      rw [← List.map_take, ← List.map_drop] at hfew hsmall ⊢
      rw [← List.take_append_drop j es] at hes hbytes
      obtain ⟨zl', hinsert, hkeeps⟩ := insert_spec junk hes hop.1 hbytes hfew hsmall
      refine ⟨zl', ?_, hkeeps⟩
      rw [Option.bind_some, position_of_lt (place_lt hplace)]
      dsimp only
      rw [hinsert, Option.map_some]
  | deleteRange i num =>
    rw [apply, hlen, run, Ziplist.deleteRange, hes.index hop, Option.bind_some]
    cases hplace : place es.length i with
    | none => exact ⟨zl, rfl, es, hes, rfl, hbytes⟩
    | some j =>
      obtain ⟨zl', hdelete, hkeeps⟩ := delete_spec junk num hes hbytes (place_lt hplace)
      refine ⟨zl', ?_, hkeeps⟩
      rw [Option.bind_some, position_of_lt (place_lt hplace)]
      dsimp only
      rw [hdelete, Option.map_some]
  | get i =>
    refine ⟨zl, ?_, es, hes, rfl, hbytes⟩
    rw [run, apply, hlen, hes.index hop, Option.bind_some]
    cases place es.length i with
    | none => rfl
    | some j => rw [Option.bind_some, Option.bind_some, textIf_spec hes htexts, Option.map_some]
  | find s skip =>
    refine ⟨zl, ?_, es, hes, rfl, hbytes⟩
    rw [run, apply, search_spec hes htexts hop, Option.bind_some]
    cases hfound : findText skip s 0 (es.map Entry.text) with
    | none => rfl
    | some j =>
      rw [Option.bind_some, textsIf_spec hes htexts (hlen ▸ findText_lt hfound), Option.map_some, Option.map_some]
  | findNext s skip =>
    refine ⟨zl, ?_, es, hes, rfl, hbytes⟩
    rw [run, apply, search_spec hes htexts hop, Option.bind_some]
    cases hfound : findText skip s 0 (es.map Entry.text) with
    | none => rfl
    | some j =>
      have hj : j < es.length := hlen ▸ findText_lt hfound
      rw [Option.bind_some, Option.bind_some, position_of_lt hj]
      dsimp only
      rw [hes.next_at hj, Option.bind_some, textIf_spec hes htexts, Option.map_some]
  | len =>
    refine ⟨zl, ?_, es, hes, rfl, hbytes⟩
    rw [run, hes.len, Option.map_some, apply, hlen]

theorem runs_spec (ops : List ((ℕ → UInt8) × ZiplistOp)) (h : Keeps zl ts)
    (hops : ∀ op ∈ ops, op.2.Callable) (hcount : Countable (ops.map Prod.snd) ts) :
    ∃ zl', runs ops zl = some (zl', (applies (ops.map Prod.snd) ts).2) ∧
      Keeps zl' (applies (ops.map Prod.snd) ts).1 := by
  induction ops generalizing zl ts with
  | nil => exact ⟨zl, rfl, h⟩
  | cons op ops ih =>
    obtain ⟨junk, op⟩ := op
    obtain ⟨⟨hfew, hsmall⟩, hrest⟩ := hcount
    obtain ⟨zl₁, hrun, hkeeps⟩ := run_spec junk op h (hops _ List.mem_cons_self) hfew hsmall
    obtain ⟨zl₂, hruns, hkeeps'⟩ := ih hkeeps (fun o ho => hops o (List.mem_cons_of_mem _ ho)) hrest
    refine ⟨zl₂, ?_, hkeeps'⟩
    simp only [runs, hrun, Option.bind_some, hruns, Option.map_some, List.map_cons, applies]

end ZiplistOp

/- Every entry has the length of the one before it, and the header where the last one starts. -/
def Linked (zl : Buf) : Prop :=
  ∃ lens, rawlens zl = some lens ∧ prevlens zl = some ((0 :: lens).take lens.length) ∧
    tailOffset zl = some (ZIPLIST_HEADER_SIZE + lens.dropLast.sum)

/-- Whatever entries are put in and taken out at any places, and whatever fresh memory holds, no
byte outside of the block is touched, the lengths that the entries keep of each other are made
right however far a change reaches, the answers are those of a list of texts, and walking
through the block in either direction gives that list. -/
theorem ziplist_refines_list (ops : List ((ℕ → UInt8) × ZiplistOp)) (hops : ∀ op ∈ ops, op.2.Callable)
    (hcount : ZiplistOp.Countable (ops.map Prod.snd) []) :
    ∃ zl, ZiplistOp.runs ops Ziplist.new = some (zl, (ZiplistOp.applies (ops.map Prod.snd) []).2) ∧
      Ziplist.texts zl = some (ZiplistOp.applies (ops.map Prod.snd) []).1 ∧
      Ziplist.textsBack zl = some (ZiplistOp.applies (ops.map Prod.snd) []).1.reverse ∧
      Linked zl ∧ Ziplist.bytes zl = some zl.length := by
  obtain ⟨zl, hruns, es, hes, htexts, hbytes⟩ := ZiplistOp.runs_spec ops ZiplistOp.keeps_new hops hcount
  have hread : ∀ e ∈ es, ByteText e.text := fun e he => hbytes _ (htexts ▸ List.mem_map_of_mem he)
  have hsmall := hes.size_lt
  refine ⟨zl, hruns, ?_, ?_, ⟨es.map Entry.rawlen, hes.rawlens, ?_, hes.tail_sum⟩, ?_⟩
  · rw [hes.texts hread, htexts]
  · rw [hes.textsBack hread, htexts]
  · rw [hes.prevlens, List.length_map]
  · rw [hes.shape, bytes_block (by rw [layout_length]; exact hsmall), block_length]

/- An entry just short enough for one byte of length, and a long one put before it, so that each
entry has to make room for the length of the one before it. Then a part is deleted. -/
def growingEntries : List ((ℕ → UInt8) × ZiplistOp) :=
  [.push false (List.replicate 250 'a'), .push false ['f'], .push false ['1', '2'],
    .insert 0 (List.replicate 300 'c'), .len, .findNext ['f'] 1, .findNext ['f'] 2, .get 3, .get (-2),
    .deleteRange (-4) 2, .findNext ['f'] 1, .find ['1', '2'] 0, .get 2].map
    fun op => (fun i => UInt8.ofNat i, op)

theorem growing_entries_refine_list :
    ∃ zl, ZiplistOp.runs growingEntries Ziplist.new =
        some (zl, [.done, .done, .done, .done, .count 4, .text (some ['1', '2']), .text none,
          .text (some ['1', '2']), .text (some ['f']), .done, .text (some ['1', '2']),
          .texts (some [['1', '2']]), .text none]) ∧
      Ziplist.textsBack zl = some [['1', '2'], ['f']] ∧ Linked zl := by
  have hcall : ∀ op ∈ growingEntries, op.2.Callable := by
    simp [-List.reduceReplicate, growingEntries, ZiplistOp.Callable, ByteText]
  have hfirst : place 3 0 = some 0 := rfl
  have hback : place 4 (-4) = some 0 := rfl
  have hcount : ZiplistOp.Countable (growingEntries.map Prod.snd) [] := by
    simp [-List.reduceReplicate, growingEntries, ZiplistOp.Countable, ZiplistOp.apply, hfirst, hback, weight,
      UINT16_MAX]
  obtain ⟨zl, hruns, -, htexts, hlinked, -⟩ := ziplist_refines_list growingEntries hcall hcount
  exact ⟨zl, hruns, htexts, hlinked⟩

end NodeServer.Redis

import NodeServer.Lib.Buckets
import Mathlib.Algebra.Order.Group.Nat

/-! # Hash tables (`redis-5.0.2/src/dict.c`)

A `dict` has two tables. It grows and shrinks by moving the chains of the first table
into the second one, a bucket with every operation, and meanwhile a key can be in either.
Nothing here depends on the hash function. -/

namespace NodeServer.Redis

open Buckets

def DICT_HT_INITIAL_SIZE : ℕ := 4
def LONG_MAX : ℕ := 2 ^ 63 - 1
def dict_force_resize_ratio : ℕ := 5
def HASHTABLE_MIN_FILL : ℕ := 10

/- `sizeof(dictEntry*)`. -/
def sizeofPointer : ℕ := 8

/- The table `NULL` is the empty list, and the size is the number of buckets. -/
structure Dictht (K V : Type) where
  table : List (List (K × V))
  used : ℕ

/- `rehashidx` is none where the source has -1. -/
structure Dict (K V : Type) where
  ht0 : Dictht K V
  ht1 : Dictht K V
  rehashidx : Option ℕ
  iterators : ℕ

/- A `dictEntry *`: the table, the bucket and the place in its chain. -/
structure EntryRef where
  second : Bool
  index : ℕ
  place : ℕ

variable {K V : Type} (hash : K → ℕ)

namespace Dictht

/-- `_dictReset` (dict.c:102). -/
def reset : Dictht K V := ⟨[], 0⟩

def size (ht : Dictht K V) : ℕ := ht.table.length

def sizemask (ht : Dictht K V) : ℕ := ht.size - 1

def index (ht : Dictht K V) (h : ℕ) : ℕ := h &&& ht.sizemask

/- A new entry stands first in its chain (dict.c:311-313). -/
def push (ht : Dictht K V) (h : ℕ) (entry : K × V) : Option (Dictht K V) :=
  ht.table[ht.index h]?.map fun chain =>
    ⟨ht.table.set (ht.index h) (entry :: chain), ht.used + 1⟩

/- The place of the key in the chain of its hash (dict.c:484-490, 973-982). -/
def search [DecidableEq K] (ht : Dictht K V) (h : ℕ) (key : K) : Option (Option ℕ) :=
  ht.table[ht.index h]?.map fun chain => chain.findIdx? fun entry => entry.1 = key

/- The entry of the key leaves its chain (dict.c:374-393), if there is one. -/
def unlink [DecidableEq K] (ht : Dictht K V) (h : ℕ) (key : K) : Option (Option (Dictht K V)) :=
  ht.table[ht.index h]?.map fun chain =>
    (chain.findIdx? fun entry => entry.1 = key).map fun place =>
      ⟨ht.table.set (ht.index h) (chain.eraseIdx place), ht.used - 1⟩

/- `dictSetVal` (dict.h:96). -/
def setVal (ht : Dictht K V) (index place : ℕ) (val : V) : Option (Dictht K V) :=
  ht.table[index]?.bind fun chain => chain[place]?.map fun entry =>
    { ht with table := ht.table.set index (chain.set place (entry.1, val)) }

end Dictht

/-! ### Rehashing -/

/- Over the empty buckets (dict.c:198-201): the bucket reached and the visits left. With no
visit left the walk has been given up. -/
def skipEmpty (table : List (List (K × V))) (idx : ℕ) : ℕ → Option (ℕ × ℕ)
  | 0 => none
  | visits + 1 => table[idx]?.bind fun chain =>
    if chain ≠ [] then some (idx, visits + 1)
    else if visits = 0 then some (idx + 1, 0)
    else skipEmpty table (idx + 1) visits

/- The entries of one bucket (dict.c:204-216). -/
def moveChain : List (K × V) → Dictht K V → Dictht K V → Option (Dictht K V × Dictht K V)
  | [], ht0, ht1 => some (ht0, ht1)
  | entry :: chain, ht0, ht1 => (ht1.push (hash entry.1) entry).bind fun ht1 =>
    moveChain chain { ht0 with used := ht0.used - 1 } ht1

structure RehashState (K V : Type) where
  ht0 : Dictht K V
  ht1 : Dictht K V
  rehashidx : ℕ

/- At most `n` buckets (dict.c:192-219), and whether the walk was given up. A failed
assertion is none. -/
def rehashLoop : ℕ → ℕ → RehashState K V → Option (RehashState K V × Bool)
  | 0, _, s => some (s, false)
  | n + 1, visits, s =>
    if s.ht0.used = 0 then some (s, false)
    else if s.ht0.size ≤ s.rehashidx then none
    else do
      let (idx, visits) ← skipEmpty s.ht0.table s.rehashidx visits
      if visits = 0 then some ({ s with rehashidx := idx }, true)
      else
        let chain ← s.ht0.table[idx]?
        let (ht0, ht1) ← moveChain hash chain s.ht0 s.ht1
        rehashLoop n visits ⟨{ ht0 with table := ht0.table.set idx [] }, ht1, idx + 1⟩

namespace Dict

/-- `dictCreate` (dict.c:111). -/
def create : Dict K V := ⟨.reset, .reset, none, 0⟩

def isRehashing (d : Dict K V) : Bool := d.rehashidx.isSome

def size (d : Dict K V) : ℕ := d.ht0.used + d.ht1.used

def slots (d : Dict K V) : ℕ := d.ht0.size + d.ht1.size

/-- `dictRehash` (dict.c:188): whether there is more to do. -/
def rehash (n : ℕ) (d : Dict K V) : Option (Dict K V × Bool) :=
  match d.rehashidx with
  | none => some (d, false)
  | some idx => (rehashLoop hash n (n * 10) ⟨d.ht0, d.ht1, idx⟩).map fun (s, givenUp) =>
    if givenUp = false ∧ s.ht0.used = 0 then
      ({ d with ht0 := s.ht1, ht1 := .reset, rehashidx := none }, false)
    else ({ d with ht0 := s.ht0, ht1 := s.ht1, rehashidx := some s.rehashidx }, true)

/-- `dictRehashMilliseconds` (dict.c:241), for as many rounds as the clock allows. -/
def rehashMilliseconds : ℕ → Dict K V → Option (Dict K V)
  | 0, d => some d
  | rounds + 1, d => (d.rehash hash 100).bind fun (d, more) =>
    if more then rehashMilliseconds rounds d else some d

/- `_dictRehashStep` (dict.c:260) where `dictIsRehashing`. -/
def rehashStep (d : Dict K V) : Option (Dict K V) :=
  if d.isRehashing ∧ d.iterators = 0 then (d.rehash hash 1).map Prod.fst else some d

/-! ### Growing and shrinking -/

/- The loop of `_dictNextPower`; it doubles a number of 64 bits. -/
def nextPowerLoop (size : ℕ) : ℕ → ℕ → ℕ
  | 0, i => i
  | fuel + 1, i => if i ≥ size then i else nextPowerLoop size fuel (i * 2)

/-- `_dictNextPower` (dict.c:944). -/
def nextPower (size : ℕ) : ℕ :=
  if size ≥ LONG_MAX then LONG_MAX + 1 else nextPowerLoop size 64 DICT_HT_INITIAL_SIZE

/-- `dictExpand` (dict.c:147). Where the number of bytes of the table is too large for 64
bits (dict.c:163), the table is shorter than its size says, and that is none. -/
def expand (size : ℕ) (d : Dict K V) : Option (Dict K V × Bool) :=
  if d.isRehashing ∨ d.ht0.used > size then some (d, false)
  else
    let realsize := nextPower size
    if realsize = d.ht0.size then some (d, false)
    else if realsize * sizeofPointer ≥ 2 ^ 64 then none
    else
      let n : Dictht K V := ⟨List.replicate realsize [], 0⟩
      if d.ht0.table = [] then some ({ d with ht0 := n }, true)
      else some ({ d with ht1 := n, rehashidx := some 0 }, true)

/-- `dictResize` (dict.c:135); `minimal` is an `int`. -/
def resize (canResize : Bool) (d : Dict K V) : Option (Dict K V × Bool) :=
  if canResize = false ∨ d.isRehashing then some (d, false)
  else
    let minimal := d.ht0.used % 2 ^ 32
    if minimal < DICT_HT_INITIAL_SIZE ∨ minimal ≥ 2 ^ 31 then d.expand DICT_HT_INITIAL_SIZE
    else d.expand minimal

/-- `htNeedsResize` (server.c:730). -/
def needsResize (d : Dict K V) : Bool :=
  d.slots > DICT_HT_INITIAL_SIZE ∧ d.size * 100 / d.slots < HASHTABLE_MIN_FILL

/-- `_dictExpandIfNeeded` (dict.c:922). -/
def expandIfNeeded (canResize : Bool) (d : Dict K V) : Option (Dict K V × Bool) :=
  if d.isRehashing then some (d, true)
  else if d.ht0.size = 0 then d.expand DICT_HT_INITIAL_SIZE
  else if d.ht0.used ≥ d.ht0.size ∧
      (canResize ∨ d.ht0.used / d.ht0.size > dict_force_resize_ratio) then
    d.expand (d.ht0.used * 2 % 2 ^ 64)
  else some (d, true)

/-! ### The entries -/

/- The loop over the tables that `dictFind` and `_dictKeyIndex` share. -/
def search [DecidableEq K] (d : Dict K V) (key : K) : Option (Option EntryRef) :=
  (d.ht0.search (hash key) key).bind fun place => match place with
    | some place => some (some ⟨false, d.ht0.index (hash key), place⟩)
    | none =>
      if d.isRehashing then
        (d.ht1.search (hash key) key).map fun place =>
          place.map fun place => ⟨true, d.ht1.index (hash key), place⟩
      else some none

/-- `dictFind` (dict.c:476). -/
def find [DecidableEq K] (key : K) (d : Dict K V) : Option (Dict K V × Option EntryRef) :=
  if d.ht0.used + d.ht1.used = 0 then some (d, none)
  else (d.rehashStep hash).bind fun d => (d.search hash key).map fun ref => (d, ref)

def deref (d : Dict K V) (ref : EntryRef) : Option (K × V) :=
  (if ref.second then d.ht1.table else d.ht0.table)[ref.index]?.bind fun chain => chain[ref.place]?

def setVal (d : Dict K V) (ref : EntryRef) (val : V) : Option (Dict K V) :=
  if ref.second then
    (d.ht1.setVal ref.index ref.place val).map fun ht => { d with ht1 := ht }
  else (d.ht0.setVal ref.index ref.place val).map fun ht => { d with ht0 := ht }

/- `dictAddRaw` (dict.c:292), with the value that the callers set at once: none where the
key was new, and otherwise the entry that exists, if the table could be made. -/
def addRaw [DecidableEq K] (canResize : Bool) (key : K) (val : V) (d : Dict K V) :
    Option (Dict K V × Option (Option EntryRef)) :=
  (d.rehashStep hash).bind fun d => (d.expandIfNeeded canResize).bind fun (d, ok) =>
    if ok = false then some (d, some none)
    else
      (d.search hash key).bind fun existing => match existing with
        | some ref => some (d, some (some ref))
        | none =>
          if d.isRehashing then
            (d.ht1.push (hash key) (key, val)).map fun ht => ({ d with ht1 := ht }, none)
          else (d.ht0.push (hash key) (key, val)).map fun ht => ({ d with ht0 := ht }, none)

/-- `dictAdd` (dict.c:265). -/
def add [DecidableEq K] (canResize : Bool) (key : K) (val : V) (d : Dict K V) : Option (Dict K V × Bool) :=
  (d.addRaw hash canResize key val).map fun (d, existing) => (d, existing.isNone)

/-- `dictReplace` (dict.c:325): whether the key is new. -/
def replace [DecidableEq K] (canResize : Bool) (key : K) (val : V) (d : Dict K V) : Option (Dict K V × Bool) :=
  (d.addRaw hash canResize key val).bind fun (d, existing) => match existing with
    | none => some (d, true)
    | some none => none
    | some (some ref) => (d.setVal ref val).map fun d => (d, false)

/-- `dictDelete`, `dictGenericDelete` (dict.c:364-405). -/
def delete [DecidableEq K] (key : K) (d : Dict K V) : Option (Dict K V × Bool) :=
  if d.ht0.used = 0 ∧ d.ht1.used = 0 then some (d, false)
  else (d.rehashStep hash).bind fun d =>
    (d.ht0.unlink (hash key) key).bind fun found => match found with
      | some ht => some ({ d with ht0 := ht }, true)
      | none =>
        if d.isRehashing then
          (d.ht1.unlink (hash key) key).map fun found => match found with
            | some ht => ({ d with ht1 := ht }, true)
            | none => (d, false)
        else some (d, false)

/-! ### Iterators -/

end Dict

/- `chain` is what is left of the current bucket, and the index -1 is none. -/
structure DictIterator (K V : Type) where
  second : Bool
  index : Option ℕ
  safe : Bool
  chain : List (K × V)

namespace Dict

/-- `dictGetIterator`, `dictGetSafeIterator` (dict.c:542-560). -/
def getIterator (safe : Bool) : DictIterator K V := ⟨false, none, safe, []⟩

/- The first step of a safe iterator. -/
def mark (d : Dict K V) (iter : DictIterator K V) : Dict K V :=
  if iter.index = none ∧ iter.second = false ∧ iter.safe then
    { d with iterators := d.iterators + 1 }
  else d

/-- `dictNext` (dict.c:562): the next entry, none at the end. The number bounds the buckets
that are visited. -/
def next : ℕ → Dict K V → DictIterator K V →
    Option (Dict K V × DictIterator K V × Option (K × V))
  | 0, _, _ => none
  | fuel + 1, d, iter => match iter.chain with
    | entry :: chain => some (d, { iter with chain := chain }, some entry)
    | [] =>
      let d := d.mark iter
      let index := iter.index.elim 0 (· + 1)
      let ht := if iter.second then d.ht1 else d.ht0
      if index ≥ ht.size then
        if d.isRehashing ∧ iter.second = false then
          d.ht1.table[0]?.bind fun chain =>
            next fuel d { iter with second := true, index := some 0, chain := chain }
        else some (d, { iter with index := some index }, none)
      else ht.table[index]?.bind fun chain =>
        next fuel d { iter with index := some index, chain := chain }

/-- `dictReleaseIterator` (dict.c:597). -/
def releaseIterator (d : Dict K V) (iter : DictIterator K V) : Dict K V :=
  if iter.index = none ∧ iter.second = false then d
  else if iter.safe then { d with iterators := d.iterators - 1 } else d

/- `while ((de = dictNext(di)) != NULL)`, for at most `n` entries. -/
def nextAll : ℕ → Dict K V → DictIterator K V →
    Option (Dict K V × DictIterator K V × List (K × V))
  | 0, _, _ => none
  | n + 1, d, iter => (d.next (d.slots + 2) iter).bind fun (d, iter, entry) => match entry with
    | none => some (d, iter, [])
    | some entry => (nextAll n d iter).map fun (d, iter, entries) => (d, iter, entry :: entries)

/- All entries, and the dict after the iterator was released. -/
def iterate (safe : Bool) (d : Dict K V) : Option (Dict K V × List (K × V)) :=
  (d.nextAll (d.size + 1) (getIterator safe)).map fun (d, iter, entries) =>
    (d.releaseIterator iter, entries)

end Dict

end NodeServer.Redis

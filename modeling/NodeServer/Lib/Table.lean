import Mathlib.Data.List.AList

/-! # Finite tables keyed by text

`AList` at a constant value type, with lookups after an update stated as
conditionals so that one `simp` call settles them. -/

namespace NodeServer

/-- A text as the bytes a client library sends: one character is one byte. -/
abbrev Str := List Char

instance : LawfulBEq Str := inferInstance

/-- Finite map from texts. -/
abbrev Table (α : Type) := AList (fun _ : Str => α)

namespace Table

variable {α : Type}

def get (t : Table α) (k : Str) : Option α := t.lookup k
def set (t : Table α) (k : Str) (v : α) : Table α := t.insert k v
def del (t : Table α) (k : Str) : Table α := t.erase k

/-- Change the value under `k`, when there is one. -/
def modify (t : Table α) (k : Str) (f : α → α) : Table α :=
  match t.get k with
  | none => t
  | some v => t.set k (f v)

theorem get_set (t : Table α) (k k' : Str) (v : α) :
    (t.set k v).get k' = if k' = k then some v else t.get k' := by
  by_cases h : k' = k
  · subst h
    simp [get, set]
  · simp [get, set, h, AList.lookup_insert_ne h]

theorem get_del (t : Table α) (k k' : Str) :
    (t.del k).get k' = if k' = k then none else t.get k' := by
  by_cases h : k' = k
  · subst h
    simp [get, del]
  · simp [get, del, h, AList.lookup_erase_ne h]

theorem get_modify (t : Table α) (k k' : Str) (f : α → α) :
    (t.modify k f).get k' = if k' = k then (t.get k).map f else t.get k' := by
  unfold modify
  cases hk : t.get k with
  | none =>
    by_cases h : k' = k
    · subst h
      simp [hk]
    · simp [h]
  | some v => simp [get_set]

theorem mem_keys_iff (t : Table α) (k : Str) : k ∈ t.keys ↔ ∃ v, t.get k = some v := by
  rw [← AList.mem_keys, ← AList.lookup_isSome, Option.isSome_iff_exists]
  rfl

end Table

end NodeServer

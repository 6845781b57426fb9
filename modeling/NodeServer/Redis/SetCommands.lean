import NodeServer.Redis.SetType
import Mathlib.Data.Finset.SDiff

/-! # The set commands on one key (`redis-5.0.2/src/t_set.c`)

A key is created by the first element that is added and deleted with the last one that is
removed. What a client sees is a finite set. -/

namespace NodeServer.Redis

/- A command on the key, with what each of its steps meets. -/
inductive SetOp where
  | sadd (value : Ambient × Str) (values : List (Ambient × Str))
  | srem (values : List (Ambient × Str))
  | smembers

inductive SetReply where
  | longLong (n : ℕ)
  | multiBulk (members : List Str)

namespace SetOp

variable (cfg : Config)

/- The loop of `saddCommand` (t_set.c:279-281): how many elements are new. -/
def addAll (o : SetObj) : List (Ambient × Str) → Option (SetObj × ℕ)
  | [] => some (o, 0)
  | (amb, value) :: values => (o.add cfg amb value).bind fun (o, isNew) =>
    (addAll o values).map fun (o, added) => (o, added + if isNew then 1 else 0)

/- The loop of `sremCommand` (t_set.c:297-306): it ends with the key. -/
def removeAll (o : SetObj) : List (Ambient × Str) → Option (Option SetObj × ℕ)
  | [] => some (some o, 0)
  | (amb, value) :: values => (o.remove cfg amb value).bind fun (o, found) =>
    if found then
      if o.size = 0 then some (none, 1)
      else (removeAll o values).map fun (o, deleted) => (o, deleted + 1)
    else removeAll o values

/- What the key holds before and after; none when it is missing. -/
def run : SetOp → Option SetObj → Option (Option SetObj × SetReply)
  | sadd value values, key =>
    (addAll cfg (key.getD (SetObj.create value.2)) (value :: values)).map fun (o, added) =>
      (some o, .longLong added)
  | srem values, key => match key with
    | none => some (none, .longLong 0)
    | some o => (removeAll cfg o values).map fun (key, deleted) => (key, .longLong deleted)
  | smembers, key => match key with
    | none => some (none, .multiBulk [])
    | some o => o.elements.map fun (o, members) => (some o, .multiBulk members)

def runs : List SetOp → Option SetObj → Option (Option SetObj × List SetReply)
  | [], key => some (key, [])
  | op :: ops, key => (op.run cfg key).bind fun (key, reply) =>
    (runs ops key).map fun (key, replies) => (key, reply :: replies)

/- What the command is for. -/
def apply : SetOp → Finset Str → Finset Str
  | sadd value values, S => S ∪ ((value :: values).map Prod.snd).toFinset
  | srem values, S => S \ (values.map Prod.snd).toFinset
  | smembers, S => S

/- What the commands are for, one after the other. -/
def applyAll (ops : List SetOp) (S : Finset Str) : Finset Str := ops.foldl (fun S op => op.apply S) S

/- The reply says how many elements have come or gone, or lists the elements in some order. -/
def Answers : SetOp → Finset Str → SetReply → Prop
  | sadd value values, S, .longLong n => n + S.card = ((sadd value values).apply S).card
  | srem values, S, .longLong n => n + ((srem values).apply S).card = S.card
  | smembers, S, .multiBulk members => members.Nodup ∧ members.toFinset = S
  | _, _, _ => False

def AllAnswer : List SetOp → Finset Str → List SetReply → Prop
  | [], _, [] => True
  | op :: ops, S, reply :: replies => op.Answers S reply ∧ AllAnswer ops (op.apply S) replies
  | _, _, _ => False

end SetOp

/- A set that fits: its table can be allocated (dict.c:163), and it does not have the one
integer whose text cannot be made when an intset is converted (sds.c:453). -/
structure Storable (S : Finset Str) : Prop where
  card : S.card ≤ 2 ^ 59
  negatable : decimal LLONG_MIN ∉ S

theorem Storable.mono {S T : Finset Str} (h : Storable T) (hsub : S ⊆ T) : Storable S :=
  ⟨(Finset.card_le_card hsub).trans h.card, fun hin => h.negatable (hsub hin)⟩

/- A key is there as long as its set has elements. -/
def KeyHolds (cfg : Config) (key : Option SetObj) (S : Finset Str) : Prop :=
  match key with
  | none => S = ∅
  | some o => o.Represents cfg S ∧ S ≠ ∅

namespace SetOp

variable {cfg : Config} {S : Finset Str}

theorem addAll_spec (hlimit : (cfg.setMaxIntsetEntries + 1) * 8 < 2 ^ 32) (values : List (Ambient × Str))
    {o : SetObj} (h : o.Represents cfg S) (hfit : Storable (S ∪ (values.map Prod.snd).toFinset)) :
    ∃ o' n, addAll cfg o values = some (o', n) ∧ o'.Represents cfg (S ∪ (values.map Prod.snd).toFinset) ∧
      n + S.card = (S ∪ (values.map Prod.snd).toFinset).card := by
  induction values generalizing o S with
  | nil => exact ⟨o, 0, rfl, by simpa using h, by simp⟩
  | cons value values ih =>
    obtain ⟨amb, value⟩ := value
    have hunion : S ∪ (((amb, value) :: values).map Prod.snd).toFinset =
        insert value S ∪ (values.map Prod.snd).toFinset := by
      rw [List.map_cons, List.toFinset_cons, Finset.insert_union, Finset.union_insert]
    rw [hunion] at hfit ⊢
    -- The sets on the way are parts of the one that is there in the end.
    have hnow : Storable (insert value S) := hfit.mono Finset.subset_union_left
    obtain ⟨o₁, hadd, h₁⟩ := h.add amb hlimit value hnow.card hnow.negatable
    have hcard : (insert value S).card = S.card + if value ∉ S then 1 else 0 := by
      by_cases hin : value ∈ S
      · simp [hin]
      · simp [hin, Finset.card_insert_of_notMem hin]
    obtain ⟨o₂, n, hrest, h₂, hn⟩ := ih h₁ hfit
    refine ⟨o₂, n + if value ∉ S then 1 else 0, ?_, h₂, by rw [← hn, hcard]; omega⟩
    simp only [addAll, hadd, Option.bind_some, hrest, Option.map_some, decide_eq_true_eq]

theorem removeAll_spec (hlimit : (cfg.setMaxIntsetEntries + 1) * 8 < 2 ^ 32)
    (values : List (Ambient × Str)) {o : SetObj} (h : o.Represents cfg S) (hS : S ≠ ∅) :
    ∃ key n, removeAll cfg o values = some (key, n) ∧
      KeyHolds cfg key (S \ (values.map Prod.snd).toFinset) ∧
      n + (S \ (values.map Prod.snd).toFinset).card = S.card := by
  induction values generalizing o S with
  | nil => exact ⟨some o, 0, rfl, by simpa [KeyHolds] using ⟨h, hS⟩, by simp⟩
  | cons value values ih =>
    obtain ⟨amb, value⟩ := value
    obtain ⟨o₁, hremove, h₁⟩ := h.remove amb hlimit value
    have hdiff : S \ (((amb, value) :: values).map Prod.snd).toFinset =
        S.erase value \ (values.map Prod.snd).toFinset := by
      rw [List.map_cons, List.toFinset_cons, Finset.sdiff_insert, Finset.erase_sdiff_comm]
    rw [hdiff]
    by_cases hin : value ∈ S
    · have hcard := Finset.card_erase_add_one hin
      have hsize := h₁.card
      by_cases hempty : S.erase value = ∅
      · rw [hempty, Finset.card_empty] at hsize hcard
        refine ⟨none, 1, ?_, by simp [KeyHolds, hempty], by simp [hempty, ← hcard]⟩
        simp [removeAll, hremove, hin, hsize]
      · obtain ⟨key, n, hrest, hkey, hn⟩ := ih h₁ hempty
        have hpos : o₁.size ≠ 0 := by
          rw [hsize]
          exact Finset.card_ne_zero.mpr (Finset.nonempty_iff_ne_empty.mpr hempty)
        refine ⟨key, n + 1, ?_, hkey, by omega⟩
        simp [removeAll, hremove, hin, hpos, hrest]
    · rw [Finset.erase_eq_of_notMem hin] at h₁ ⊢
      obtain ⟨key, n, hrest, hkey, hn⟩ := ih h₁ hS
      refine ⟨key, n, ?_, hkey, hn⟩
      simp [removeAll, hremove, hin, hrest]

/-- One command on the key is the command on the set. -/
theorem run_answers (hlimit : (cfg.setMaxIntsetEntries + 1) * 8 < 2 ^ 32) (op : SetOp)
    {key : Option SetObj} (h : KeyHolds cfg key S) (hfit : Storable (op.apply S)) :
    ∃ key' reply, op.run cfg key = some (key', reply) ∧ KeyHolds cfg key' (op.apply S) ∧
      op.Answers S reply := by
  cases op with
  | sadd value values =>
    have hstart : (key.getD (SetObj.create value.2)).Represents cfg S := by
      cases key with
      | none =>
        have hnone : S = ∅ := h
        rw [hnone]
        exact SetObj.create_represents value.2
      | some o => exact h.1
    obtain ⟨o', n, hadd, ho', hn⟩ := addAll_spec hlimit (value :: values) hstart hfit
    refine ⟨some o', .longLong n, ?_, ⟨ho', ?_⟩, hn⟩
    · rw [run, hadd, Option.map_some]
    · rw [apply, List.map_cons, List.toFinset_cons, Finset.union_insert]
      exact Finset.insert_ne_empty _ _
  | srem values =>
    cases key with
    | none =>
      have hnone : S = ∅ := h
      exact ⟨none, .longLong 0, rfl, by simp [KeyHolds, apply, hnone], by simp [Answers, apply, hnone]⟩
    | some o =>
      obtain ⟨key', n, hremove, hkey', hn⟩ := removeAll_spec hlimit values h.1 h.2
      exact ⟨key', .longLong n, by rw [run, hremove, Option.map_some], hkey', hn⟩
  | smembers =>
    cases key with
    | none =>
      have hnone : S = ∅ := h
      exact ⟨none, .multiBulk [], rfl, h, List.nodup_nil, by rw [hnone]; rfl⟩
    | some o =>
      obtain ⟨texts, helements, hnodup, hmem⟩ := h.1.elements
      refine ⟨some o, .multiBulk texts, by rw [run, helements, Option.map_some], h, hnodup, ?_⟩
      ext m
      rw [List.mem_toFinset, hmem]

theorem runs_answer (hlimit : (cfg.setMaxIntsetEntries + 1) * 8 < 2 ^ 32) (ops : List SetOp)
    {key : Option SetObj} (h : KeyHolds cfg key S)
    (hfit : ∀ before, before <+: ops → Storable (applyAll before S)) :
    ∃ key' replies, runs cfg ops key = some (key', replies) ∧ KeyHolds cfg key' (applyAll ops S) ∧
      AllAnswer ops S replies := by
  induction ops generalizing key S with
  | nil => exact ⟨key, [], rfl, h, trivial⟩
  | cons op ops ih =>
    have hnext : Storable (op.apply S) :=
      hfit [op] ((List.prefix_cons_inj op).mpr List.nil_prefix)
    obtain ⟨key₁, reply, hrun, h₁, hreply⟩ := run_answers hlimit op h hnext
    obtain ⟨key₂, replies, hrest, h₂, hreplies⟩ := ih h₁ fun before hpre =>
      hfit (op :: before) ((List.prefix_cons_inj op).mpr hpre)
    refine ⟨key₂, reply :: replies, ?_, h₂, hreply, hreplies⟩
    simp only [runs, hrun, Option.bind_some, hrest, Option.map_some]

end SetOp

/-- Whatever elements are added to a key and removed from it, integers or not, and whichever
encoding its set has in between, the replies are those of a finite set, and the key is there
exactly as long as the set has an element, as long as the set fits at every moment. -/
theorem set_commands_refine_set (cfg : Config) (ops : List SetOp)
    (hlimit : (cfg.setMaxIntsetEntries + 1) * 8 < 2 ^ 32)
    (hfit : ∀ before, before <+: ops → Storable (SetOp.applyAll before ∅)) :
    ∃ key replies, SetOp.runs cfg ops none = some (key, replies) ∧ SetOp.AllAnswer ops ∅ replies ∧
      (key = none ↔ SetOp.applyAll ops ∅ = ∅) := by
  have hempty : KeyHolds cfg none ∅ := rfl
  obtain ⟨key, replies, hruns, hkey, hreplies⟩ := SetOp.runs_answer hlimit ops hempty hfit
  refine ⟨key, replies, hruns, hreplies, ?_⟩
  cases key with
  | none => exact ⟨fun _ => hkey, fun _ => rfl⟩
  | some o =>
    constructor
    · intro hnone
      cases hnone
    · intro hnone
      exact absurd hnone hkey.2

/- A set of integers that gets a text and with it another encoding, and that loses all its
elements one after the other. -/
def mixedMembers : List SetOp :=
  let amb : Ambient := ⟨true, fun i => UInt8.ofNat i⟩
  [.sadd (amb, ['7']) [(amb, ['-', '1']), (amb, ['7'])], .sadd (amb, ['x']) [], .smembers,
    .srem [(amb, ['7']), (amb, ['0', '7'])], .srem [(amb, ['x']), (amb, ['-', '1']), (amb, ['y'])], .smembers]

theorem mixed_members_refine_set :
    ∃ replies, SetOp.runs ⟨fun s => s.length, 512⟩ mixedMembers none = some (none, replies) ∧
      SetOp.AllAnswer mixedMembers ∅ replies := by
  have hfit : ∀ before, before <+: mixedMembers → Storable (SetOp.applyAll before ∅) := by
    intro before hpre
    rw [← List.mem_inits] at hpre
    simp only [mixedMembers, List.inits, List.mem_cons, List.not_mem_nil, or_false, List.map_cons, List.map_nil] at hpre
    rcases hpre with rfl | rfl | rfl | rfl | rfl | rfl | rfl <;> exact ⟨by decide, by decide⟩
  obtain ⟨key, replies, hruns, hreplies, hkey⟩ :=
    set_commands_refine_set ⟨fun s => s.length, 512⟩ mixedMembers (by decide) hfit
  have hnone : key = none := hkey.mpr (by decide)
  rw [hnone] at hruns
  exact ⟨replies, hruns, hreplies⟩

end NodeServer.Redis

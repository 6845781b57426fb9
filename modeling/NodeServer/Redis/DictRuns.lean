import NodeServer.Redis.DictEntries
import Mathlib.Data.Set.Card
import Mathlib.Logic.Function.Basic

/-! # Hash tables refine maps -/

namespace NodeServer.Redis

variable {K V : Type} {hash : K → ℕ} {es : List (K × V)}

inductive DictOp (K V : Type) where
  | add (key : K) (val : V)
  | replace (key : K) (val : V)
  | find (key : K)
  | delete (key : K)
  | expand (size : ℕ)
  | tryResize
  | rehashMilliseconds (rounds : ℕ)

inductive DictAnswer (V : Type) where
  | flag (b : Bool)
  | value (v : Option V)
  | nothing

namespace DictOp

variable [DecidableEq K]

/- With the policy of the moment about growing, `dict_can_resize`. -/
def run (hash : K → ℕ) (canResize : Bool) : DictOp K V → Dict K V → Option (Dict K V × DictAnswer V)
  | add key val, d => (d.add hash canResize key val).map fun (d, ok) => (d, .flag ok)
  | replace key val, d => (d.replace hash canResize key val).map fun (d, ok) => (d, .flag ok)
  | find key, d => (d.find hash key).bind fun (d, ref) => match ref with
    | none => some (d, .value none)
    | some ref => (d.deref ref).map fun entry => (d, .value (some entry.2))
  | delete key, d => (d.delete hash key).map fun (d, ok) => (d, .flag ok)
  | expand size, d => (d.expand size).map fun (d, _) => (d, .nothing)
  | tryResize, d =>
    if d.needsResize then (d.resize canResize).map fun (d, _) => (d, .nothing) else some (d, .nothing)
  | rehashMilliseconds rounds, d => (d.rehashMilliseconds hash rounds).map fun d => (d, .nothing)

/- What the operation is for. -/
def apply : DictOp K V → (K → Option V) → (K → Option V) × DictAnswer V
  | add key val, m =>
    if (m key).isSome then (m, .flag false) else (Function.update m key (some val), .flag true)
  | replace key val, m => (Function.update m key (some val), .flag (m key).isNone)
  | find key, m => (m, .value (m key))
  | delete key, m => (Function.update m key none, .flag (m key).isSome)
  | expand _, m => (m, .nothing)
  | tryResize, m => (m, .nothing)
  | rehashMilliseconds _, m => (m, .nothing)

def runs (hash : K → ℕ) : List (Bool × DictOp K V) → Dict K V → Option (Dict K V × List (DictAnswer V))
  | [], d => some (d, [])
  | (canResize, op) :: ops, d => (op.run hash canResize d).bind fun (d, answer) =>
    (runs hash ops d).map fun (d, answers) => (d, answer :: answers)

def applies : List (DictOp K V) → (K → Option V) → (K → Option V) × List (DictAnswer V)
  | [], m => (m, [])
  | op :: ops, m =>
    let rest := applies ops (op.apply m).1
    (rest.1, (op.apply m).2 :: rest.2)

end DictOp

/- The entries are the graph of the map. -/
def Graph (es : List (K × V)) (m : K → Option V) : Prop := ∀ k v, (k, v) ∈ es ↔ m k = some v

theorem Graph.eq_none {m : K → Option V} (h : Graph es m) {key : K} (hnot : ∀ v, (key, v) ∉ es) : m key = none := by
  rw [Option.eq_none_iff_forall_ne_some]
  exact fun v hv => hnot v ((h key v).mpr hv)

theorem Graph.mem_keys {m : K → Option V} (h : Graph es m) (key : K) :
    key ∈ es.map Prod.fst ↔ (m key).isSome := by
  rw [List.mem_map, Option.isSome_iff_exists]
  constructor
  · rintro ⟨e, he, rfl⟩
    exact ⟨e.2, (h e.1 e.2).mp he⟩
  · rintro ⟨v, hv⟩
    exact ⟨(key, v), (h key v).mpr hv, rfl⟩

section

variable [DecidableEq K] {m : K → Option V} {d : Dict K V}

/- The keys of a map. -/
def keysOf (m : K → Option V) : Set K := { k | (m k).isSome = true }

theorem Graph.length (h : Graph es m) (hdistinct : (es.map Prod.fst).Nodup) :
    (keysOf m).encard = es.length := by
  have hkeys : keysOf m = ((es.map Prod.fst).toFinset : Set K) := by
    ext k
    rw [List.coe_toFinset]
    exact (h.mem_keys k).symm
  rw [hkeys, Set.encard_coe_eq_coe_finsetCard, List.toFinset_card_of_nodup hdistinct, List.length_map]

theorem Graph.update (h : Graph es m) (key : K) (val : V) :
    Graph ((key, val) :: es.filter fun e => e.1 ≠ key) (Function.update m key (some val)) := by
  intro k v
  rw [Function.update_apply, List.mem_cons, List.mem_filter, h]
  by_cases hk : k = key
  · simp [hk, eq_comm]
  · simp [hk]

theorem Graph.erase (h : Graph es m) (key : K) :
    Graph (es.filter fun e => e.1 ≠ key) (Function.update m key none) := by
  intro k v
  rw [Function.update_apply, List.mem_filter, h]
  by_cases hk : k = key
  · simp [hk]
  · simp [hk]

/-- One operation on the two tables is the operation on the map. -/
theorem DictOp.run_spec (hd : d.Holds hash es) (hm : Graph es m) (canResize : Bool)
    (op : DictOp K V) (hfit : es.length ≤ 2 ^ 59) (hsize : ∀ size, op = .expand size → size ≤ 2 ^ 60) :
    ∃ d' es', op.run hash canResize d = some (d', (op.apply m).2) ∧ d'.Holds hash es' ∧
      Graph es' (op.apply m).1 := by
  cases op with
  | add key val =>
    obtain ⟨d', ok, es', hadd, hd', hcases⟩ := hd.add canResize key val hfit
    rcases hcases with ⟨rfl, hnot, rfl⟩ | ⟨rfl, hin, rfl⟩
    · have hnone : m key = none := by
        rw [hm.mem_keys, Bool.not_eq_true, Option.isSome_eq_false_iff, Option.isNone_iff_eq_none] at hnot
        exact hnot
      have hgraph := hm.update key val
      rw [Dictht.filter_of_not_mem fun v hv => by simp [(hm key v).mp hv] at hnone] at hgraph
      refine ⟨d', _, ?_, hd', ?_⟩
      · simp [DictOp.run, hadd, DictOp.apply, hnone]
      · simpa [DictOp.apply, hnone] using hgraph
    · have hsome := (hm.mem_keys key).mp hin
      refine ⟨d', _, ?_, hd', ?_⟩
      · simp [DictOp.run, hadd, DictOp.apply, hsome]
      · simpa [DictOp.apply, hsome] using hm
  | replace key val =>
    have hgraph := hm.update key val
    rcases hd.addRaw canResize key val hfit with
      ⟨d', hadd, hd', hnot⟩ | ⟨d', ref, v, hadd, hd', hmem, hderef⟩
    · rw [Dictht.filter_of_not_mem hnot] at hgraph
      refine ⟨d', _, ?_, hd', hgraph⟩
      simp [DictOp.run, Dict.replace, hadd, DictOp.apply, hm.eq_none hnot]
    · obtain ⟨d'', hset, hd''⟩ := hd'.setVal hderef val
      refine ⟨d'', _, ?_, hd'', hgraph⟩
      simp [DictOp.run, Dict.replace, hadd, hset, DictOp.apply, (hm key v).mp hmem]
  | find key =>
    obtain ⟨d', ref, hfind, hd', hfound⟩ := hd.find key
    refine ⟨d', es, ?_, hd', hm⟩
    cases ref with
    | none => simp [DictOp.run, hfind, DictOp.apply, hm.eq_none hfound]
    | some ref =>
      obtain ⟨v, hmem, hderef⟩ := hfound
      simp [DictOp.run, hfind, hderef, DictOp.apply, (hm key v).mp hmem]
  | delete key =>
    obtain ⟨d', found, hdelete, hfound, hd'⟩ := hd.delete key
    refine ⟨d', _, ?_, hd', hm.erase key⟩
    rw [hm.mem_keys key, Bool.coe_iff_coe] at hfound
    simp [DictOp.run, hdelete, DictOp.apply, hfound]
  | expand size =>
    obtain ⟨d', ok, hexpand, hd'⟩ := hd.expand size (hsize size rfl)
    refine ⟨d', es, ?_, hd', hm⟩
    simp [DictOp.run, hexpand, DictOp.apply]
  | tryResize =>
    simp only [DictOp.run, DictOp.apply]
    split
    · obtain ⟨d', ok, hresize, hd'⟩ := hd.resize canResize
      refine ⟨d', es, ?_, hd', hm⟩
      rw [hresize, Option.map_some]
    · exact ⟨d, es, rfl, hd, hm⟩
  | rehashMilliseconds rounds =>
    obtain ⟨d', hrehash, hd', -⟩ := hd.rehashMilliseconds rounds
    refine ⟨d', es, ?_, hd', hm⟩
    simp [DictOp.run, hrehash, DictOp.apply]

theorem DictOp.runs_spec (ops : List (Bool × DictOp K V)) (hd : d.Holds hash es) (hm : Graph es m)
    (hfit : ∀ before, before <+: ops.map Prod.snd →
      (keysOf (DictOp.applies before m).1).encard ≤ (2 ^ 59 : ℕ))
    (hsize : ∀ size, .expand size ∈ ops.map Prod.snd → size ≤ 2 ^ 60) :
    ∃ d' es', DictOp.runs hash ops d = some (d', (DictOp.applies (ops.map Prod.snd) m).2) ∧
      d'.Holds hash es' ∧ Graph es' (DictOp.applies (ops.map Prod.snd) m).1 := by
  induction ops generalizing d es m with
  | nil => exact ⟨d, es, rfl, hd, hm⟩
  | cons op ops ih =>
    obtain ⟨canResize, op⟩ := op
    have hnow : es.length ≤ 2 ^ 59 := by
      have hkeys := hfit [] List.nil_prefix
      rwa [show (DictOp.applies [] m).1 = m from rfl, hm.length hd.distinct, Nat.cast_le] at hkeys
    obtain ⟨d₁, es₁, hop, hd₁, hm₁⟩ := DictOp.run_spec hd hm canResize op hnow
      fun size heq => hsize size (by simp [heq])
    obtain ⟨d₂, es₂, hrest, hd₂, hm₂⟩ := ih hd₁ hm₁
      (fun before hpre => hfit (op :: before) (List.prefix_cons_inj op |>.mpr hpre))
      fun size hmem => hsize size (List.mem_cons_of_mem _ hmem)
    refine ⟨d₂, es₂, ?_, hd₂, hm₂⟩
    simp only [DictOp.runs, hop, Option.bind_some, hrest, Option.map_some, List.map_cons,
      DictOp.applies]

/-- Whatever the hash function, the operations and the policy about growing are, no bucket
outside of a table is touched, the answers are those of a map, also while the entries are
moving, an iterator comes to every entry once, and the moving comes to an end, as long as
the tables asked for can be allocated. -/
theorem dict_refines_map (hash : K → ℕ) (ops : List (Bool × DictOp K V))
    (hfit : ∀ before, before <+: ops.map Prod.snd →
      (keysOf (DictOp.applies before fun _ => none).1).encard ≤ (2 ^ 59 : ℕ))
    (hsize : ∀ size, .expand size ∈ ops.map Prod.snd → size ≤ 2 ^ 60) :
    ∃ d, DictOp.runs hash ops Dict.create =
        some (d, (DictOp.applies (ops.map Prod.snd) fun _ => none).2) ∧
      (∀ safe, ∃ listed, d.iterate safe = some (d, listed) ∧ (listed.map Prod.fst).Nodup ∧
        listed.length = d.size ∧ Graph listed (DictOp.applies (ops.map Prod.snd) fun _ => none).1) ∧
      ∃ d', d.rehashMilliseconds hash (d.slots + 2) = some d' ∧ d'.isRehashing = false := by
  have hempty : Graph ([] : List (K × V)) fun _ => none := by
    intro k v
    simp
  obtain ⟨d, es, hruns, hd, hgraph⟩ := DictOp.runs_spec ops (Dict.holds_create hash) hempty
    hfit hsize
  refine ⟨d, hruns, fun safe => ?_, ?_⟩
  · obtain ⟨listed, hiterate, hperm⟩ := hd.iterate safe
    refine ⟨listed, hiterate, ?_, ?_, fun k v => ?_⟩
    · exact (hperm.map Prod.fst).nodup_iff.mpr hd.distinct
    · rw [hperm.length_eq, hd.size]
    · rw [hperm.mem_iff]
      exact hgraph k v
  · obtain ⟨d', hrehash, -, hdone, -⟩ := hd.rehashMilliseconds (d.slots + 2)
    exact ⟨d', hrehash, hdone d.ahead_lt⟩

end

/- Colliding keys, a deletion and a lookup while the entries are on their way to the larger
table, and a table that shrinks again. -/
def growAndShrink : List (Bool × DictOp (Fin 6) ℕ) :=
  [.add 1 10, .add 2 20, .add 3 30, .add 4 40, .add 5 50, .delete 2, .find 5, .find 2, .add 4 7,
    .replace 1 11, .delete 3, .delete 4, .delete 5, .tryResize, .find 1].map fun op => (true, op)

theorem growing_dict_refines_map :
    ∃ d, DictOp.runs (fun k : Fin 6 => k.val % 3) growAndShrink Dict.create =
        some (d, [.flag true, .flag true, .flag true, .flag true, .flag true, .flag true,
          .value (some 50), .value none, .flag false, .flag false, .flag true, .flag true, .flag true,
          .nothing, .value (some 11)]) ∧
      ∃ listed, d.iterate true = some (d, listed) ∧ listed.length = d.size := by
  have hfew (keys : Set (Fin 6)) : keys.encard ≤ (2 ^ 59 : ℕ) := by
    refine Set.encard_le_card.trans ?_
    rw [ENat.card_eq_coe_fintype_card, Fintype.card_fin, Nat.cast_le]
    decide
  obtain ⟨d, hruns, hlist, -⟩ := dict_refines_map (fun k : Fin 6 => k.val % 3) growAndShrink
    (fun before _ => hfew _) (by simp [growAndShrink])
  obtain ⟨listed, hiterate, -, hsize, -⟩ := hlist true
  exact ⟨d, hruns, listed, hiterate, hsize⟩

end NodeServer.Redis

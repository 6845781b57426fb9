import Mathlib.Logic.Hydra
import Mathlib.Algebra.BigOperators.Group.Finset.Basic
import NodeServer.Lib.Run

/-! # Work that runs out

Finitely many workers have tasks, and doing a task takes it off and may add any
number of smaller tasks to the same worker. When the tasks are ordered by a
well-founded relation this cannot go on for ever, although no bound on the
number of steps is known in advance. -/

namespace NodeServer.Work

open Relation

variable {ι α : Type}

/- The tasks of all workers. -/
def total (ps : Finset ι) (tasks : ι → Multiset α) : Multiset α := ∑ p ∈ ps, tasks p

theorem total_congr {ps : Finset ι} {tasks tasks' : ι → Multiset α}
    (h : ∀ p ∈ ps, tasks' p = tasks p) : total ps tasks' = total ps tasks :=
  Finset.sum_congr rfl h

/-- One worker does one of its tasks. -/
theorem total_cutExpand [DecidableEq ι] {r : α → α → Prop} {ps : Finset ι}
    {tasks tasks' : ι → Multiset α} {p : ι} (hp : p ∈ ps) {a : α} {news : Multiset α}
    (hnews : ∀ b ∈ news, r b a) (hdone : tasks' p + {a} = tasks p + news)
    (hothers : ∀ q ∈ ps, q ≠ p → tasks' q = tasks q) :
    CutExpand r (total ps tasks') (total ps tasks) := by
  refine ⟨news, a, hnews, ?_⟩
  have hrest : ∑ q ∈ ps.erase p, tasks' q = ∑ q ∈ ps.erase p, tasks q :=
    Finset.sum_congr rfl fun q hq =>
      hothers q (Finset.mem_of_mem_erase hq) (Finset.ne_of_mem_erase hq)
  rw [total, total, ← Finset.add_sum_erase ps tasks' hp, ← Finset.add_sum_erase ps tasks hp, hrest,
    add_right_comm, hdone, add_right_comm]

end NodeServer.Work

namespace NodeServer.Run

variable {σ ε τ : Type}

/-- Steps that go down a well-founded relation cannot go on for ever. -/
theorem no_infinite_run {step : σ → ε → Option σ} (ok : σ → ε → Prop) (inv : σ → Prop)
    {r : τ → τ → Prop} (hr : WellFounded r) (measure : σ → τ)
    (lower : ∀ v e v', inv v → ok v e → step v e = some v' → inv v' ∧ r (measure v') (measure v))
    (ws : ℕ → σ) (start : inv (ws 0)) :
    ∃ n, ∀ e, ok (ws n) e → step (ws n) e ≠ some (ws (n + 1)) := by
  by_contra hno
  push Not at hno
  have hinv : ∀ n, inv (ws n) := by
    intro n
    induction n with
    | zero => exact start
    | succ n ih =>
      obtain ⟨e, he, hs⟩ := hno n
      exact (lower _ e _ ih he hs).1
  have hlower : ∀ n, r (measure (ws (n + 1))) (measure (ws n)) := by
    intro n
    obtain ⟨e, he, hs⟩ := hno n
    exact (lower _ e _ (hinv n) he hs).2
  obtain ⟨_, ⟨n, rfl⟩, hmin⟩ := hr.has_min (Set.range fun n => measure (ws n)) ⟨_, 0, rfl⟩
  exact hmin _ ⟨n + 1, rfl⟩ (hlower n)

end NodeServer.Run

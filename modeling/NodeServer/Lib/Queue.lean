import Mathlib.Data.List.Pairwise

/-! # Queues served in rounds

The elements of a first-in first-out queue have ranks. Serving the head takes it
off and may add elements of the next lower rank at the end, so that a rank is
served completely before the one below it. -/

namespace NodeServer.Queue

variable {α : Type} {rank : α → ℕ}

/- Ranks fall along the queue, and by one at most. -/
structure Rounds (rank : α → ℕ) (l : List α) : Prop where
  sorted : l.Pairwise fun a b => rank b ≤ rank a
  close : ∀ a ∈ l, ∀ b ∈ l, rank a ≤ rank b + 1

theorem Rounds.singleton (a : α) : Rounds rank [a] where
  sorted := List.pairwise_singleton _ a
  close := by
    intro b hb c hc
    rw [List.mem_singleton.mp hb, List.mem_singleton.mp hc]
    omega

theorem Rounds.serve {a : α} {l news : List α} (h : Rounds rank (a :: l))
    (hnews : ∀ b ∈ news, rank b + 1 = rank a) : Rounds rank (l ++ news) := by
  obtain ⟨hhead, htail⟩ := List.pairwise_cons.mp h.sorted
  have hlow : ∀ b ∈ l, rank a ≤ rank b + 1 := fun b hb =>
    h.close a (List.mem_cons_self ..) b (List.mem_cons_of_mem _ hb)
  refine ⟨?_, ?_⟩
  · refine List.pairwise_append.mpr ⟨htail, ?_, ?_⟩
    · apply List.pairwise_of_forall_mem_list
      intro b hb c hc
      have hb := hnews b hb
      have hc := hnews c hc
      omega
    · intro b hb c hc
      have hb := hlow b hb
      have hc := hnews c hc
      omega
  · intro b hb c hc
    rcases List.mem_append.mp hb with hb | hb
    · rcases List.mem_append.mp hc with hc | hc
      · exact h.close b (List.mem_cons_of_mem _ hb) c (List.mem_cons_of_mem _ hc)
      · have hb := hhead b hb
        have hc := hnews c hc
        omega
    · have hb := hnews b hb
      rcases List.mem_append.mp hc with hc | hc
      · have hc := hlow c hc
        omega
      · have hc := hnews c hc
        omega

/- Behind an element of rank 0 there are only such. -/
theorem Rounds.after_zero {a : α} {before l : List α} (h : Rounds rank (before ++ a :: l))
    (ha : rank a = 0) : ∀ b ∈ a :: l, rank b = 0 := by
  have hsorted := (List.pairwise_append.mp h.sorted).2.1
  intro b hb
  rcases List.mem_cons.mp hb with rfl | hb
  · exact ha
  · have hle := (List.pairwise_cons.mp hsorted).1 b hb
    omega

end NodeServer.Queue

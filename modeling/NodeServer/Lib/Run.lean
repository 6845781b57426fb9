import Mathlib.Tactic.Common

/-! # Runs of a guarded transition function

A system is a partial step function on states and events. `Reach` follows runs
all of whose steps meet a condition on the state before the step and its event;
`Path` also keeps the steps taken, and `runs` executes a list of events. -/

namespace NodeServer.Run

variable {σ ε : Type}

/-- States reached from `w` by steps that each meet `ok`. -/
inductive Reach (step : σ → ε → Option σ) (ok : σ → ε → Prop) (w : σ) : σ → Prop
  | refl : Reach step ok w w
  | tail {v v' : σ} (e : ε) : Reach step ok w v → ok v e → step v e = some v' →
      Reach step ok w v'

theorem Reach.invariant {step : σ → ε → Option σ} {ok : σ → ε → Prop} {w v : σ}
    (inv : σ → Prop) (start : inv w)
    (kept : ∀ v e v', inv v → ok v e → step v e = some v' → inv v')
    (h : Reach step ok w v) : inv v := by
  induction h with
  | refl => exact start
  | tail e _ hok hs ih => exact kept _ e _ ih hok hs

theorem Reach.trans {step : σ → ε → Option σ} {ok : σ → ε → Prop} {u w v : σ}
    (first : Reach step ok u w) (rest : Reach step ok w v) : Reach step ok u v := by
  induction rest with
  | refl => exact first
  | tail e _ hok hs ih => exact .tail e ih hok hs

theorem Reach.mono {step : σ → ε → Option σ} {ok ok' : σ → ε → Prop} {w v : σ}
    (h : Reach step ok w v) (weaker : ∀ v e, ok v e → ok' v e) : Reach step ok' w v := by
  induction h with
  | refl => exact .refl
  | tail e _ hok hs ih => exact .tail e ih (weaker _ e hok) hs

theorem Reach.cases_head {step : σ → ε → Option σ} {ok : σ → ε → Prop} {w v : σ}
    (h : Reach step ok w v) :
    v = w ∨ ∃ e u, ok w e ∧ step w e = some u ∧ Reach step ok u v := by
  induction h with
  | refl => exact Or.inl rfl
  | tail e _ hok hs ih =>
    rcases ih with rfl | ⟨e', u, hok', hs', hrest⟩
    · exact Or.inr ⟨e, _, hok, hs, .refl⟩
    · exact Or.inr ⟨e', u, hok', hs', .tail e hrest hok hs⟩

/-- A run with the state before each of its steps and the event taken there. -/
inductive Path (step : σ → ε → Option σ) (w : σ) : List (σ × ε) → σ → Prop
  | nil : Path step w [] w
  | snoc {tr : List (σ × ε)} {v v' : σ} (e : ε) : Path step w tr v → step v e = some v' →
      Path step w (tr ++ [(v, e)]) v'

theorem Path.invariant {step : σ → ε → Option σ} {w v : σ} {tr : List (σ × ε)}
    (inv : List (σ × ε) → σ → Prop) (start : inv [] w)
    (kept : ∀ tr v e v', inv tr v → step v e = some v' → inv (tr ++ [(v, e)]) v')
    (h : Path step w tr v) : inv tr v := by
  induction h with
  | nil => exact start
  | snoc e _ hs ih => exact kept _ _ e _ ih hs

/-- The state after a list of events, when every one of them is enabled. -/
def runs (step : σ → ε → Option σ) (w : σ) : List ε → Option σ
  | [] => some w
  | e :: es => (step w e).bind fun v => runs step v es

/-- The steps of the run of a list of events. -/
def steps (step : σ → ε → Option σ) (w : σ) : List ε → List (σ × ε)
  | [] => []
  | e :: es => (w, e) :: match step w e with
    | none => []
    | some v => steps step v es

theorem path_of_runs {step : σ → ε → Option σ} (es : List ε) (u w v : σ) (tr : List (σ × ε))
    (first : Path step u tr w) (h : runs step w es = some v) :
    Path step u (tr ++ steps step w es) v := by
  induction es generalizing w tr with
  | nil =>
    rw [← Option.some.inj h]
    simpa [steps] using first
  | cons e es ih =>
    obtain ⟨x, hx, hr⟩ := Option.bind_eq_some_iff.mp h
    have hrest := ih x (tr ++ [(w, e)]) (first.snoc e hx) hr
    simpa [steps, hx] using hrest

/-- Whether every step of the run meets a decidable condition. -/
def meets (step : σ → ε → Option σ) (ok : σ → ε → Bool) (w : σ) : List ε → Bool
  | [] => true
  | e :: es => ok w e && match step w e with
    | none => false
    | some v => meets step ok v es

/-- A run by evaluation. The test may rely on what the events of the list keep. -/
theorem reach_of_meets {step : σ → ε → Option σ} {ok : σ → ε → Prop} {test : σ → ε → Bool}
    (inv : σ → Prop) (es : List ε)
    (kept : ∀ v e v', e ∈ es → inv v → step v e = some v' → inv v')
    (sound : ∀ v e, inv v → test v e = true → ok v e) (w v : σ) (hw : inv w)
    (hm : meets step test w es = true) (h : runs step w es = some v) : Reach step ok w v := by
  induction es generalizing w with
  | nil =>
    have hv : w = v := Option.some.inj h
    subst hv
    exact .refl
  | cons e es ih =>
    obtain ⟨u, hu, hr⟩ := Option.bind_eq_some_iff.mp h
    simp only [meets, hu, Bool.and_eq_true] at hm
    have hrest := ih (fun a b c hb => kept a b c (List.mem_cons_of_mem _ hb)) u
      (kept w e u (List.mem_cons_self ..) hw hu) hm.2 hr
    exact (Reach.tail e .refl (sound w e hw hm.1) hu).trans hrest

theorem runs_of_meets {step : σ → ε → Option σ} {test : σ → ε → Bool} (es : List ε) (w : σ)
    (h : meets step test w es = true) : (runs step w es).isSome = true := by
  induction es generalizing w with
  | nil => rfl
  | cons e es ih =>
    simp only [meets, Bool.and_eq_true] at h
    simp only [runs]
    cases hs : step w e with
    | none =>
      rw [hs] at h
      cases h.2
    | some u =>
      rw [hs] at h
      exact ih u h.2

/-- Where a list of events leads; the start when one of them is not enabled. -/
def ends (step : σ → ε → Option σ) (w : σ) (es : List ε) : σ := (runs step w es).getD w

theorem runs_ends {step : σ → ε → Option σ} {w : σ} {es : List ε}
    (h : (runs step w es).isSome = true) : runs step w es = some (ends step w es) := by
  obtain ⟨v, hv⟩ := Option.isSome_iff_exists.mp h
  simp [ends, hv]

theorem reach_of_runs {step : σ → ε → Option σ} {ok : σ → ε → Prop} (es : List ε) (w v : σ)
    (hok : ∀ e ∈ es, ∀ v, ok v e) (h : runs step w es = some v) : Reach step ok w v := by
  induction es generalizing w with
  | nil =>
    rw [Option.some.inj h]
    exact .refl
  | cons e es ih =>
    obtain ⟨u, hu, hr⟩ := Option.bind_eq_some_iff.mp h
    have hrest := ih u (fun e' he' => hok e' (List.mem_cons_of_mem _ he')) hr
    exact (Reach.tail e .refl (hok e (List.mem_cons_self ..) w) hu).trans hrest

theorem reach_ends {step : σ → ε → Option σ} {w : σ} (es : List ε)
    (h : (runs step w es).isSome = true) : Reach step (fun _ _ => True) w (ends step w es) :=
  reach_of_runs es w _ (fun _ _ _ => trivial) (runs_ends h)

theorem path_ends {step : σ → ε → Option σ} {w : σ} (es : List ε)
    (h : (runs step w es).isSome = true) : Path step w (steps step w es) (ends step w es) :=
  path_of_runs es w w _ [] .nil (runs_ends h)

theorem runs_append {step : σ → ε → Option σ} (es fs : List ε) (w : σ) :
    runs step w (es ++ fs) = (runs step w es).bind fun v => runs step v fs := by
  induction es generalizing w with
  | nil => rfl
  | cons e es ih =>
    simp only [List.cons_append, runs]
    cases step w e with
    | none => rfl
    | some u => exact ih u

theorem runs_split {step : σ → ε → Option σ} {w : σ} {es fs : List ε}
    (h : (runs step w (es ++ fs)).isSome = true) :
    (runs step w es).isSome = true ∧
      runs step (ends step w es) fs = some (ends step w (es ++ fs)) := by
  have hall := runs_ends h
  rw [runs_append] at hall
  obtain ⟨v, hv, hf⟩ := Option.bind_eq_some_iff.mp hall
  have hend : ends step w es = v := by simp [ends, hv]
  exact ⟨by rw [hv]; rfl, by rw [hend]; exact hf⟩

theorem ends_append {step : σ → ε → Option σ} {w : σ} {es fs : List ε}
    (h : (runs step w (es ++ fs)).isSome = true) :
    ends step (ends step w es) fs = ends step w (es ++ fs) := by
  show (runs step (ends step w es) fs).getD _ = _
  rw [(runs_split h).2]
  rfl

theorem step_ends {step : σ → ε → Option σ} {w : σ} {es : List ε} {e : ε}
    (h : (runs step w (es ++ [e])).isSome = true) :
    step (ends step w es) e = some (ends step w (es ++ [e])) := by
  have hlast := (runs_split h).2
  obtain ⟨v, hv, hn⟩ := Option.bind_eq_some_iff.mp hlast
  rw [hv]
  exact hn

theorem reach_ends_append {step : σ → ε → Option σ} {w : σ} {es fs : List ε}
    (h : (runs step w (es ++ fs)).isSome = true) :
    Reach step (fun _ _ => True) (ends step w es) (ends step w (es ++ fs)) := by
  rw [← ends_append h]
  exact reach_ends fs (by rw [(runs_split h).2]; rfl)

theorem reach_of_decide {step : σ → ε → Option σ} {ok : σ → ε → Prop} [∀ v e, Decidable (ok v e)]
    (es : List ε) (w : σ) (h : meets step (fun v e => decide (ok v e)) w es = true) :
    Reach step ok w (ends step w es) :=
  reach_of_meets (fun _ => True) es (fun _ _ _ _ _ _ => trivial) (fun _ _ _ hd => of_decide_eq_true hd)
    w _ trivial h (runs_ends (runs_of_meets es w h))

/-! ### Runs that come to an end -/

theorem Path.cons {step : σ → ε → Option σ} {w u v : σ} {e : ε} {tr : List (σ × ε)}
    (first : step w e = some u) (h : Path step u tr v) : Path step w ((w, e) :: tr) v := by
  induction h with
  | nil => exact .snoc e .nil first
  | snoc e' _ hs ih => exact .snoc e' ih hs

theorem Path.append {step : σ → ε → Option σ} {w u v : σ} {tr tr' : List (σ × ε)}
    (first : Path step w tr u) (rest : Path step u tr' v) : Path step w (tr ++ tr') v := by
  induction rest with
  | nil => rwa [List.append_nil]
  | snoc e _ hs ih =>
    rw [← List.append_assoc]
    exact ih.snoc e hs

theorem Reach.path {step : σ → ε → Option σ} {ok : σ → ε → Prop} {w v : σ}
    (h : Reach step ok w v) : ∃ tr, Path step w tr v ∧ ∀ a ∈ tr, ok a.1 a.2 := by
  induction h with
  | refl => exact ⟨[], .nil, List.forall_mem_nil _⟩
  | tail e _ hok hs ih =>
    obtain ⟨tr, hpath, htr⟩ := ih
    refine ⟨tr ++ [(_, e)], hpath.snoc e hs, ?_⟩
    intro a ha
    rcases List.mem_append.mp ha with ha | ha
    · exact htr a ha
    · rw [List.mem_singleton.mp ha]
      exact hok

/-- A run whose steps lower a measure is no longer than the measure allows. -/
theorem Path.bounded {step : σ → ε → Option σ} {w v : σ} {tr : List (σ × ε)}
    (ok : σ → ε → Prop) (inv : σ → Prop) (measure : σ → ℕ) (start : inv w)
    (lower : ∀ v e v', inv v → ok v e → step v e = some v' → inv v' ∧ measure v' < measure v)
    (h : Path step w tr v) (hok : ∀ a ∈ tr, ok a.1 a.2) :
    inv v ∧ tr.length + measure v ≤ measure w := by
  induction h with
  | nil => exact ⟨start, by simp⟩
  | snoc e _ hs ih =>
    obtain ⟨hinv, hle⟩ := ih fun a ha => hok a (List.mem_append_left _ ha)
    obtain ⟨hinv', hlt⟩ := lower _ e _ hinv (hok (_, e) (by simp)) hs
    refine ⟨hinv', ?_⟩
    rw [List.length_append, List.length_singleton]
    omega

/-- While something is left to do it can be done, so some run does everything. -/
theorem exists_done {τ : Type} {step : σ → ε → Option σ} (ok : σ → ε → Prop) (inv done : σ → Prop)
    {r : τ → τ → Prop} (hr : WellFounded r) (measure : σ → τ)
    (lower : ∀ v e v', inv v → ok v e → step v e = some v' → inv v' ∧ r (measure v') (measure v))
    (progress : ∀ v, inv v → done v ∨ ∃ e v', ok v e ∧ step v e = some v') (w : σ) (start : inv w) :
    ∃ v, Reach step ok w v ∧ done v := by
  induction hm : measure w using hr.induction generalizing w with
  | _ m ih =>
    rcases progress w start with hdone | ⟨e, u, he, hs⟩
    · exact ⟨w, .refl, hdone⟩
    · obtain ⟨hu, hlower⟩ := lower w e u start he hs
      obtain ⟨v, hrun, hdone⟩ := ih (measure u) (hm ▸ hlower) u hu rfl
      exact ⟨v, (Reach.tail e .refl he hs).trans hrun, hdone⟩

end NodeServer.Run

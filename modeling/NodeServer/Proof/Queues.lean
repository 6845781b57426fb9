import NodeServer.Proof.Issued
import NodeServer.Proof.Traces

/-! # The calls of a process in flight

Redis executes the calls of a process in the order in which they were issued, and
their callbacks run in that order. A call is followed through a run by its place in
this queue, and the calls of one kind by the queue without the others. -/

namespace NodeServer

/- The calls in flight of a process, in order, with the replies that are there. -/
def Proc.queue (x : Proc) : List (Call × Option Store.Reply) :=
  x.answered.map (fun cr => (cr.1, some cr.2)) ++ x.sent.map fun c => (c, none)

/- Those of one kind. -/
def Proc.flight (f : Call → Bool) (x : Proc) : List (Call × Option Store.Reply) :=
  x.queue.filter fun a => f a.1

/- What the servers do by themselves, whether commands fail or not. -/
def Event.server : Event → Bool
  | .exec _ _ | .reply _ | .deliver _ _ _ => true
  | _ => false

theorem queue_length (x : Proc) : x.queue.length = x.calls.length := by
  simp [Proc.queue, Proc.calls]

theorem mem_calls_iff {x : Proc} {c : Call} : c ∈ x.calls ↔ ∃ o, (c, o) ∈ x.queue := by
  simp [Proc.calls, Proc.queue, exists_or]

theorem mem_queue_of_flight {f : Call → Bool} {x : Proc} {c : Call} {o : Option Store.Reply}
    (h : (c, o) ∈ x.flight f) : (c, o) ∈ x.queue :=
  (List.mem_filter.mp h).1

section

variable {w v : World} {e : Event} {p q : Pid} {n : ℕ} {c : Call} {o : Option Store.Reply}
  {r : Store.Reply} {i : Input} {x : Proc} {f : Call → Bool}

theorem Executed.queue (h : Executed w v e p c r) :
    ∃ before rest, (w.procs p).queue = before ++ (c, none) :: rest ∧
      (v.procs p).queue = before ++ (c, some r) :: rest := by
  refine ⟨(w.procs p).answered.map fun cr => (cr.1, some cr.2),
    (v.procs p).sent.map fun c => (c, none), ?_, ?_⟩
  · rw [Proc.queue, h.sent]
    rfl
  · rw [Proc.queue, h.answered]
    simp

theorem Handled.queue (h : Handled w v e p i x) (hw : WF w) :
    (w.procs p).queue = i.replied.map (fun cr => (cr.1, some cr.2)) ++ x.queue ∧
      (v.procs p).queue = x.queue ++ (x.issued p i).map fun c => (c, none) := by
  have hsent := h.issued hw
  obtain ⟨news, outs, heff⟩ := h.effect hw
  refine ⟨?_, ?_⟩
  · rw [Proc.queue, Proc.queue, h.answered, h.sent]
    simp
  · rw [Proc.queue, Proc.queue, hsent, heff.answered, h.sent]
    simp

theorem Handled.queue_other (h : Handled w v e q i x) (hp : p ≠ q) :
    (v.procs p).queue = (w.procs p).queue := by
  obtain ⟨-, -, hsent, hans⟩ := h.other_conns p hp
  rw [Proc.queue, hsent, hans]
  rfl

/-! ### Calls of one kind -/

theorem Executed.flight_other (h : Executed w v e q c r) (hf : f c = false) (p : Pid) :
    (v.procs p).flight f = (w.procs p).flight f := by
  by_cases hp : p = q
  · subst hp
    obtain ⟨before, rest, hold, hnew⟩ := h.queue
    simp [Proc.flight, hold, hnew, hf]
  · rw [h.others p hp]

theorem Executed.flight_moves (h : Executed w v e p c r) (hf : f c = true)
    (hone : ((w.procs p).flight f).length ≤ 1) :
    (w.procs p).flight f = [(c, none)] ∧ (v.procs p).flight f = [(c, some r)] := by
  obtain ⟨before, rest, hold, hnew⟩ := h.queue
  have hbefore : (w.procs p).flight f =
      (before.filter fun a => f a.1) ++ (c, none) :: rest.filter fun a => f a.1 := by
    simp [Proc.flight, hold, hf]
  have hafter : (v.procs p).flight f =
      (before.filter fun a => f a.1) ++ (c, some r) :: rest.filter fun a => f a.1 := by
    simp [Proc.flight, hnew, hf]
  rw [hbefore, List.length_append, List.length_cons] at hone
  have hb : (before.filter fun a => f a.1) = [] := List.eq_nil_of_length_eq_zero (by omega)
  have hr : (rest.filter fun a => f a.1) = [] := List.eq_nil_of_length_eq_zero (by omega)
  rw [hbefore, hafter, hb, hr]
  exact ⟨rfl, rfl⟩

theorem Handled.flight (h : Handled w v e p i x) (hw : WF w) (f : Call → Bool) :
    (w.procs p).flight f =
        (i.replied.filter fun cr => f cr.1).map (fun cr => (cr.1, some cr.2)) ++ x.flight f ∧
      (v.procs p).flight f = x.flight f ++ ((x.issued p i).filter f).map fun c => (c, none) := by
  obtain ⟨hold, hnew⟩ := h.queue hw
  refine ⟨?_, ?_⟩
  · rw [Proc.flight, hold, List.filter_append, List.filter_map]
    rfl
  · rw [Proc.flight, hnew, List.filter_append, List.filter_map]
    rfl

/-! ### The place of a call -/

theorem getElem?_append_cons_ne {α : Type} (before rest : List α) (a b : α)
    (hn : n ≠ before.length) : (before ++ a :: rest)[n]? = (before ++ b :: rest)[n]? := by
  rcases Nat.lt_or_gt_of_ne hn with hlt | hgt
  · rw [List.getElem?_append_left hlt, List.getElem?_append_left hlt]
  · rw [List.getElem?_append_right (Nat.le_of_lt hgt), List.getElem?_append_right (Nat.le_of_lt hgt)]
    obtain ⟨k, hk⟩ := Nat.exists_eq_succ_of_ne_zero (Nat.sub_ne_zero_of_lt hgt)
    rw [hk]
    rfl

theorem getElem?_append_of_some {α : Type} {l : List α} {a : α} (h : l[n]? = some a)
    (rest : List α) : (l ++ rest)[n]? = some a := by
  obtain ⟨hn, -⟩ := List.getElem?_eq_some_iff.mp h
  rw [List.getElem?_append_left hn, h]

/- What a step does to the call at one place of a queue: it is executed, its
callback runs, or it keeps its place or moves up with a callback before it. -/
inductive PlaceStep (p : Pid) (w : World) (e : Event) (v : World) (n : ℕ) (c : Call) :
    Option Store.Reply → Prop
  | executed (r : Store.Reply) (other : e ≠ .reply p) (run : Executed w v e p c r)
      (place : (v.procs p).queue[n]? = some (c, some r)) : PlaceStep p w e v n c none
  | called (r : Store.Reply) (first : n = 0) (reply : e = .reply p)
      (run : Handled w v e p (.reply c r) ((takeOff w e).procs p)) :
      PlaceStep p w e v n c (some r)
  | stays (o : Option Store.Reply) (other : e ≠ .reply p)
      (place : (v.procs p).queue[n]? = some (c, o)) : PlaceStep p w e v n c o
  | moves (o : Option Store.Reply) (m : ℕ) (next : n = m + 1) (reply : e = .reply p)
      (place : (v.procs p).queue[m]? = some (c, o)) : PlaceStep p w e v n c o

theorem Executed.placeStep {d : Call} (h : Executed w v e q d r)
    (hc : (w.procs p).queue[n]? = some (c, o)) : PlaceStep p w e v n c o := by
  have hne : e ≠ .reply p := by
    rcases h.db with ⟨order, rfl, _⟩ | ⟨message, rfl, _⟩
    · exact fun heq => by cases heq
    · exact fun heq => by cases heq
  by_cases hq : p = q
  · subst hq
    obtain ⟨before, rest, hold, hnew⟩ := h.queue
    rw [hold] at hc
    by_cases hn : n = before.length
    · subst hn
      have hcd : (d, none) = (c, o) := by simpa using hc
      cases hcd
      exact .executed r hne h (by rw [hnew]; simp)
    · refine .stays o hne ?_
      rw [hnew, ← hc]
      exact getElem?_append_cons_ne before rest _ _ hn
  · refine .stays o hne ?_
    rw [h.others p hq]
    exact hc

theorem Handled.placeStep (h : Handled w v e q i ((takeOff w e).procs q)) (hw : WF w)
    (hc : (w.procs p).queue[n]? = some (c, o)) : PlaceStep p w e v n c o := by
  by_cases hq : p = q
  · subst hq
    obtain ⟨hold, hnew⟩ := h.queue hw
    rw [hold] at hc
    by_cases he : e = .reply p
    · subst he
      obtain ⟨-, c₀, r₀, rfl⟩ := inputOf_reply h.input
      cases n with
      | zero =>
        have hcr : (c₀, some r₀) = (c, o) := by simpa [Input.replied] using hc
        cases hcr
        exact .called r₀ rfl rfl h
      | succ n =>
        refine .moves o n rfl rfl ?_
        rw [hnew]
        have hrest : ((takeOff w (.reply p)).procs p).queue[n]? = some (c, o) := by
          simpa [Input.replied] using hc
        exact getElem?_append_of_some hrest _
    · refine .stays o he ?_
      have hrep : i.replied = [] := by
        cases i with
        | reply c₀ r₀ => exact absurd h.arrives.1 he
        | _ => rfl
      rw [hrep] at hc
      rw [hnew]
      exact getElem?_append_of_some hc _
  · have he : e ≠ .reply p := by
      rintro rfl
      exact hq (inputOf_reply h.input).1
    refine .stays o he ?_
    rw [h.queue_other hq]
    exact hc

theorem step_place (hw : WF w) (hs : step w e = some v)
    (hc : (w.procs p).queue[n]? = some (c, o)) : PlaceStep p w e v n c o := by
  cases hin : inputOf w e with
  | none =>
    rcases step_cases w v e hs with ⟨q, d, r, hx⟩ | ⟨q, i, x, hh⟩
    · exact hx.placeStep hc
    · have hsome := hh.input
      rw [hin] at hsome
      cases hsome
  | some qi => exact (handled_takeOff hs hin).placeStep hw hc

/-! ### Every call comes to its callback -/

theorem exec_place {outcome : Outcome} (hw : WF w) (hs : step w (.exec p outcome) = some v)
    (hc : (w.procs p).queue[n]? = some (c, o)) : ∃ o', (v.procs p).queue[n]? = some (c, o') := by
  cases step_place hw hs hc with
  | executed r other run place => exact ⟨some r, place⟩
  | called r first reply run => cases reply
  | stays o other place => exact ⟨o, place⟩
  | moves o m next reply place => cases reply

theorem reply_place (hw : WF w) (hs : step w (.reply p) = some v)
    (hc : (w.procs p).queue[n + 1]? = some (c, o)) : (v.procs p).queue[n]? = some (c, o) := by
  cases step_place hw hs hc with
  | executed r other run place => exact absurd rfl other
  | called r first reply run => cases first
  | stays o other place => exact absurd rfl other
  | moves o m next reply place =>
    cases next
    exact place

/-- Redis can be made to answer the first call of a process. -/
theorem reaches_answer (hw : WF w) (hc : (w.procs p).queue[n]? = some (c, o)) :
    ∃ v o', Run.Reach step (fun _ e => e.server = true) w v ∧ (v.procs p).answered ≠ [] ∧
      (v.procs p).queue[n]? = some (c, o') := by
  cases hans : (w.procs p).answered with
  | cons cr rest => exact ⟨w, o, .refl, by rw [hans]; exact List.cons_ne_nil _ _, hc⟩
  | nil =>
    cases hsent : (w.procs p).sent with
    | nil =>
      rw [Proc.queue, hans, hsent] at hc
      cases hc
    | cons d rest =>
      obtain ⟨order, v, hs⟩ := exec_enabled hsent
      obtain ⟨o', hplace⟩ := exec_place hw hs hc
      obtain ⟨d', r, hx⟩ := exec_cases w v p _ hs
      refine ⟨v, o', .tail _ .refl rfl hs, ?_, hplace⟩
      rw [hx.answered]
      simp

/-- The calls before it are answered one by one, so every call comes to the
point where its callback is next. -/
theorem reaches_callback (hw : WF w) (hc : (c, o) ∈ (w.procs p).queue) :
    ∃ v r rest, Run.Reach step (fun _ e => e.server = true) w v ∧
      (v.procs p).answered = (c, r) :: rest := by
  obtain ⟨n, hn⟩ := List.mem_iff_getElem?.mp hc
  clear hc
  -- the place in the queue falls with every callback
  induction n generalizing w o with
  | zero =>
    obtain ⟨v, o', hreach, hans, hplace⟩ := reaches_answer hw hn
    obtain ⟨cr, rest, hans⟩ := List.exists_cons_of_ne_nil hans
    rw [Proc.queue, hans] at hplace
    cases hplace
    exact ⟨v, cr.2, rest, hreach, hans⟩
  | succ n ih =>
    obtain ⟨v, o', hreach, hans, hplace⟩ := reaches_answer hw hn
    obtain ⟨cr, rest, hans⟩ := List.exists_cons_of_ne_nil hans
    obtain ⟨u, hs⟩ := reply_enabled hans
    have hv := hw.reach hreach
    obtain ⟨z, r, rest', hlater, hz⟩ := ih (hv.step hs) (reply_place hv hs hplace)
    exact ⟨z, r, rest', (Run.Reach.tail _ hreach rfl hs).trans hlater, hz⟩

end

end NodeServer

import NodeServer.Proof.React

/-! # Inversion of a step of the system

A step either executes the oldest call a process has sent, or gives a process
one input. -/

namespace NodeServer

/-- Redis took the oldest call of `p` and the reply `r` is on its way. -/
structure Executed (w v : World) (e : Event) (p : Pid) (c : Call) (r : Store.Reply) : Prop where
  sent : (w.procs p).sent = c :: (v.procs p).sent
  answered : (v.procs p).answered = (w.procs p).answered ++ [(c, r)]
  conns : (v.procs p).conns = (w.procs p).conns
  userList : (v.procs p).userList = (w.procs p).userList
  outbox : (v.procs p).outbox = (w.procs p).outbox
  others : ∀ q, q ≠ p → v.procs q = w.procs q
  socketIds : v.socketIds = w.socketIds
  db : (∃ order, e = .exec p (.done order) ∧ v.db = (c.txn.run w.db).1 ∧
      (c.txn.run w.db).2.inOrder order = some r) ∨
    (∃ message, e = .exec p (.failed message) ∧ v.db = w.db ∧ r = .error message)

/-- The reply an input hands over. -/
def Input.replied : Input → List (Call × Store.Reply)
  | .reply c r => [(c, r)]
  | _ => []

def Input.connects : Input → List Str
  | .connect s _ => [s]
  | _ => []

/-- Process `p`, in state `x` once the input is off its queue, handled `i`. -/
structure Handled (w v : World) (e : Event) (p : Pid) (i : Input) (x : Proc) : Prop where
  input : inputOf w e = some (p, i)
  sent : x.sent = (w.procs p).sent
  answered : (w.procs p).answered = i.replied ++ x.answered
  conns : x.conns = (w.procs p).conns
  userList : x.userList = (w.procs p).userList
  nextRef : x.nextRef = (w.procs p).nextRef
  outbox : ∀ packet, packet ∈ x.outbox → packet ∈ (w.procs p).outbox
  after : v.procs p = react p i x
  others : ∀ q, q ≠ p → ∃ outbox, v.procs q = { w.procs q with outbox := outbox } ∧
    ∀ packet, packet ∈ outbox → packet ∈ (w.procs q).outbox
  delivered : ∀ q packet, packet ∈ (w.procs q).outbox →
    i = .packet packet ∨ (q = p ∧ packet ∈ x.outbox) ∨ (q ≠ p ∧ packet ∈ (v.procs q).outbox)
  db : v.db = w.db
  socketIds : v.socketIds = i.connects ++ w.socketIds

theorem setProc_self (w : World) (p : Pid) (x : Proc) : (w.setProc p x).procs p = x := by
  simp [World.setProc]

theorem setProc_ne (w : World) (p q : Pid) (x : Proc) (h : q ≠ p) :
    (w.setProc p x).procs q = w.procs q := by
  simp [World.setProc, h]

theorem exec_cases (w v : World) (p : Pid) (outcome : Outcome)
    (h : execStep w p outcome = some v) : ∃ c r, Executed w v (.exec p outcome) p c r := by
  unfold execStep at h
  split at h
  · cases h
  · next c rest order hsent =>
    obtain ⟨r, hr, rfl⟩ := Option.map_eq_some_iff.mp h
    refine ⟨c, r, ?_, ?_, ?_, ?_, ?_, ?_, rfl, Or.inl ⟨order, rfl, rfl, hr⟩⟩
    · simp [World.setProc, hsent]
    · simp [World.setProc]
    · simp [World.setProc]
    · simp [World.setProc]
    · simp [World.setProc]
    · intro q hq
      exact setProc_ne w p q _ hq
  · next c rest message hsent =>
    cases h
    refine ⟨c, .error message, ?_, ?_, ?_, ?_, ?_, ?_, rfl, Or.inr ⟨message, rfl, rfl, rfl⟩⟩
    · simp [World.setProc, hsent]
    · simp [World.setProc]
    · simp [World.setProc]
    · simp [World.setProc]
    · simp [World.setProc]
    · intro q hq
      exact setProc_ne w p q _ hq

theorem handled_plain (w : World) (e : Event) (p : Pid) (i : Input) (ids : List Str)
    (hin : inputOf w e = some (p, i)) (hrep : i.replied = []) (hids : ids = i.connects ++ w.socketIds)
    (v : World) (hv : v = { w.setProc p (react p i (w.procs p)) with socketIds := ids }) :
    Handled w v e p i (w.procs p) := by
  subst hv
  have hne : ∀ q, q ≠ p → (w.setProc p (react p i (w.procs p))).procs q = w.procs q :=
    fun q hq => setProc_ne w p q _ hq
  refine ⟨hin, rfl, by simp [hrep], rfl, rfl, rfl, fun _ h => h, setProc_self w p _, ?_, ?_, rfl, hids⟩
  · intro q hq
    exact ⟨(w.procs q).outbox, hne q hq, fun _ h => h⟩
  · intro q packet hp
    by_cases hq : q = p
    · subst hq
      exact Or.inr (Or.inl ⟨rfl, hp⟩)
    · refine Or.inr (Or.inr ⟨hq, ?_⟩)
      show packet ∈ ((w.setProc p (react p i (w.procs p))).procs q).outbox
      rw [hne q hq]
      exact hp

theorem handled_reply (w v : World) (p : Pid) (c : Call) (r : Store.Reply)
    (rest : List (Call × Store.Reply)) (hans : (w.procs p).answered = (c, r) :: rest)
    (hv : v = (takeOff w (.reply p)).setProc p
      (react p (.reply c r) ((takeOff w (.reply p)).procs p))) :
    Handled w v (.reply p) p (.reply c r) ((takeOff w (.reply p)).procs p) := by
  have hx : (takeOff w (.reply p)).procs p = { w.procs p with answered := rest } := by
    simp [takeOff, setProc_self, hans]
  have hne : ∀ q, q ≠ p → v.procs q = w.procs q := by
    intro q hq
    rw [hv, setProc_ne _ p q _ hq]
    exact setProc_ne w p q _ hq
  rw [hx] at hv ⊢
  refine ⟨by simp [inputOf, hans], rfl, by simp [Input.replied, hans], rfl, rfl, rfl,
    fun _ h => h, ?_, ?_, ?_, by rw [hv]; rfl, by rw [hv]; rfl⟩
  · rw [hv, setProc_self]
  · intro q hq
    exact ⟨(w.procs q).outbox, hne q hq, fun _ h => h⟩
  · intro q packet hp
    by_cases hq : q = p
    · subst hq
      exact Or.inr (Or.inl ⟨rfl, hp⟩)
    · exact Or.inr (Or.inr ⟨hq, by rw [hne q hq]; exact hp⟩)

theorem mem_eraseIdx_cases {α : Type} (l : List α) (n : ℕ) (a b : α) (hb : l[n]? = some b)
    (ha : a ∈ l) : a = b ∨ a ∈ l.eraseIdx n := by
  induction l generalizing n with
  | nil => cases ha
  | cons c l ih =>
    cases n with
    | zero =>
      have hc : c = b := by simpa using hb
      rcases List.mem_cons.mp ha with rfl | ha
      · exact Or.inl hc
      · exact Or.inr (by simpa using ha)
    | succ n =>
      rcases List.mem_cons.mp ha with rfl | ha
      · exact Or.inr (by simp)
      · rcases ih n (by simpa using hb) ha with h | h
        · exact Or.inl h
        · exact Or.inr (by simp [h])

theorem handled_packet (w v : World) (q : Pid) (n : ℕ) (p : Pid) (packet : Packet)
    (hget : (w.procs q).outbox[n]? = some packet) (hurl : packet.url = appInfo p)
    (hv : v = (takeOff w (.deliver q n p)).setProc p
      (react p (.packet packet) ((takeOff w (.deliver q n p)).procs p))) :
    Handled w v (.deliver q n p) p (.packet packet) ((takeOff w (.deliver q n p)).procs p) := by
  have hself : (takeOff w (.deliver q n p)).procs q =
      { w.procs q with outbox := (w.procs q).outbox.eraseIdx n } := setProc_self w q _
  have hother : ∀ t, t ≠ q → (takeOff w (.deliver q n p)).procs t = w.procs t :=
    fun t ht => setProc_ne w q t _ ht
  have hform : ∀ t, ∃ outbox, (takeOff w (.deliver q n p)).procs t =
      { w.procs t with outbox := outbox } ∧
      (∀ a, a ∈ outbox → a ∈ (w.procs t).outbox) ∧
      (∀ a, a ∈ (w.procs t).outbox → a = packet ∨ a ∈ outbox) := by
    intro t
    by_cases ht : t = q
    · subst ht
      exact ⟨_, hself, fun a ha => List.mem_of_mem_eraseIdx ha,
        fun a ha => mem_eraseIdx_cases _ n a packet hget ha⟩
    · exact ⟨(w.procs t).outbox, hother t ht, fun _ h => h, fun _ h => Or.inr h⟩
  obtain ⟨ob, hp, hsub, hsup⟩ := hform p
  refine ⟨by simp [inputOf, hget, hurl], ?_, ?_, ?_, ?_, ?_, ?_, ?_, ?_, ?_, by rw [hv]; rfl,
    by rw [hv]; rfl⟩
  · rw [hp]
  · rw [hp]
    rfl
  · rw [hp]
  · rw [hp]
  · rw [hp]
  · rw [hp]
    exact hsub
  · rw [hv, setProc_self]
  · intro t ht
    obtain ⟨ob', ht', hsub', _⟩ := hform t
    exact ⟨ob', by rw [hv, setProc_ne _ p t _ ht, ht'], hsub'⟩
  · intro t a ha
    obtain ⟨ob', ht', _, hsup'⟩ := hform t
    rcases hsup' a ha with rfl | hin
    · exact Or.inl rfl
    · by_cases htp : t = p
      · subst htp
        exact Or.inr (Or.inl ⟨rfl, by rw [ht']; exact hin⟩)
      · exact Or.inr (Or.inr ⟨htp, by rw [hv, setProc_ne _ p t _ htp, ht']; exact hin⟩)

/-- The process of an input handles it once the input is off its queue. -/
theorem handled_takeOff {w v : World} {e : Event} {p : Pid} {i : Input} (h : step w e = some v)
    (hin : inputOf w e = some (p, i)) : Handled w v e p i ((takeOff w e).procs p) := by
  have hv : v = (takeOff w e).setProc p (react p i ((takeOff w e).procs p)) := by
    cases e with
    | exec q outcome => cases hin
    | _ =>
      simp only [step, hin, Option.map_some, Option.some.injEq] at h
      exact h.symm
  have plain : i.replied = [] → i.connects = [] → takeOff w e = w →
      Handled w v e p i ((takeOff w e).procs p) := by
    intro hrep hcon htake
    rw [htake] at hv ⊢
    exact handled_plain w e p i w.socketIds hin hrep (by simp [hcon]) v hv
  have hi := hin
  cases e with
  | exec q outcome => cases hi
  | connect q suffix now =>
    simp only [inputOf] at hi
    split at hi
    · cases hi
      exact handled_plain w _ p _ _ hin rfl rfl _ hv
    · cases hi
  | message q s req now | wsError q s =>
    simp only [inputOf] at hi
    split at hi
    · cases hi
      exact plain rfl rfl rfl
    · cases hi
      exact plain rfl rfl rfl
    · cases hi
  | peerClose q s | wsClose q s =>
    simp only [inputOf] at hi
    split at hi
    · cases hi
      exact plain rfl rfl rfl
    · cases hi
  | reply q =>
    simp only [inputOf] at hi
    split at hi
    · cases hi
    · next c r rest hans =>
      cases hi
      exact handled_reply w v p c r rest hans hv
  | deliver q n t =>
    simp only [inputOf] at hi
    split at hi
    · cases hi
    · next packet hget =>
      split at hi
      · next hurl =>
        cases hi
        exact handled_packet w v q n p packet hget hurl hv
      · cases hi

/-- Inversion of `step`. -/
theorem step_cases (w v : World) (e : Event) (h : step w e = some v) :
    (∃ p c r, Executed w v e p c r) ∨ (∃ p i x, Handled w v e p i x) := by
  cases e with
  | exec p outcome =>
    obtain ⟨c, r, hx⟩ := exec_cases w v p outcome h
    exact Or.inl ⟨p, c, r, hx⟩
  | _ =>
    obtain ⟨⟨p, i⟩, hin, -⟩ := Option.map_eq_some_iff.mp h
    exact Or.inr ⟨p, i, _, handled_takeOff h hin⟩

def Event.isExec : Event → Bool
  | .exec _ _ => true
  | _ => false

/-- Every event but the execution of a command is handled by a process. -/
theorem step_handled {w v : World} {e : Event} (h : step w e = some v) (he : e.isExec = false) :
    ∃ p i x, Handled w v e p i x := by
  rcases step_cases w v e h with ⟨p, c, r, hx⟩ | hx
  · rcases hx.db with ⟨order, rfl, _⟩ | ⟨message, rfl, _⟩
    · cases he
    · cases he
  · exact hx

theorem setProc_setProc (w : World) (p : Pid) (x y : Proc) :
    (w.setProc p x).setProc p y = w.setProc p y := by
  simp only [World.setProc]
  congr 1
  funext q
  by_cases hq : q = p
  · simp only [hq, if_true]
  · simp only [hq, if_false]

/-- The callback of the oldest answered call runs. -/
theorem step_reply {w v : World} {p : Pid} (h : step w (.reply p) = some v) :
    ∃ c r rest, (w.procs p).answered = (c, r) :: rest ∧
      v = w.setProc p (react p (.reply c r) { w.procs p with answered := rest }) := by
  cases hans : (w.procs p).answered with
  | nil => simp [step, inputOf, hans] at h
  | cons cr rest =>
    obtain ⟨c, r⟩ := cr
    refine ⟨c, r, rest, rfl, ?_⟩
    have hx : (takeOff w (.reply p)).procs p = { w.procs p with answered := rest } := by
      simp [takeOff, World.setProc, hans]
    simp only [step, inputOf, hans, Option.map_some, Option.some.injEq, hx] at h
    rw [← h]
    exact setProc_setProc w p _ _

/-- A forwarded notice arrives. -/
theorem step_deliver {w v : World} {p q : Pid} {n : ℕ} (h : step w (.deliver q n p) = some v) :
    ∃ packet, (w.procs q).outbox[n]? = some packet ∧ packet.url = appInfo p ∧
      v = (w.setProc q { w.procs q with outbox := (w.procs q).outbox.eraseIdx n }).setProc p
        ((w.setProc q { w.procs q with outbox := (w.procs q).outbox.eraseIdx n }).procs p |>.onPacket
          packet) := by
  cases hget : (w.procs q).outbox[n]? with
  | none => simp [step, inputOf, hget] at h
  | some packet =>
    by_cases hurl : packet.url = appInfo p
    · simp only [step, inputOf, hget, hurl, if_true, Option.map_some, Option.some.injEq] at h
      exact ⟨packet, rfl, hurl, h.symm⟩
    · simp [step, inputOf, hget, hurl] at h

/-! ### When an input can arrive -/

theorem inputOf_reply {w : World} {p q : Pid} {i : Input}
    (h : inputOf w (.reply p) = some (q, i)) : p = q ∧ ∃ c r, i = .reply c r := by
  cases hans : (w.procs p).answered with
  | nil => simp [inputOf, hans] at h
  | cons cr rest =>
    simp only [inputOf, hans, Option.some.injEq, Prod.mk.injEq] at h
    exact ⟨h.1, _, _, h.2.symm⟩

theorem inputOf_message {w : World} {p q : Pid} {s : Str} {req : Request} {now : ℕ} {i : Input}
    (h : inputOf w (.message p s req now) = some (q, i)) : p = q ∧ i = .message s req now := by
  simp only [inputOf] at h
  split at h
  · cases h
    exact ⟨rfl, rfl⟩
  · cases h
    exact ⟨rfl, rfl⟩
  · cases h

theorem inputOf_wsClose {w : World} {p q : Pid} {s : Str} {i : Input}
    (h : inputOf w (.wsClose p s) = some (q, i)) : p = q ∧ i = .wsClose s := by
  simp only [inputOf] at h
  split at h
  · cases h
    exact ⟨rfl, rfl⟩
  · cases h

theorem inputOf_wsError {w : World} {p q : Pid} {s : Str} {i : Input}
    (h : inputOf w (.wsError p s) = some (q, i)) : p = q ∧ i = .wsError s := by
  simp only [inputOf] at h
  split at h
  · cases h
    exact ⟨rfl, rfl⟩
  · cases h
    exact ⟨rfl, rfl⟩
  · cases h

/-- The event an input comes from and what the event waits for. -/
def Arrives (w : World) (e : Event) (p : Pid) : Input → Prop
  | .connect s now => ∃ suffix, e = .connect p suffix now ∧ base36 suffix = true ∧
      s = socketIdOf suffix ∧ s ∉ w.socketIds
  | .message s req now => e = .message p s req now ∧
      ((w.procs p).ws s = some .opened ∨ (w.procs p).ws s = some .closing)
  | .peerClose s => e = .peerClose p s ∧ (w.procs p).ws s = some .opened
  | .wsError s => e = .wsError p s ∧
      ((w.procs p).ws s = some .opened ∨ (w.procs p).ws s = some .closing)
  | .wsClose s => e = .wsClose p s ∧ (w.procs p).ws s = some .closing
  | .reply c r => e = .reply p ∧ (c, r) ∈ (w.procs p).answered
  | .packet packet => packet.url = appInfo p ∧
      ∃ q n, e = .deliver q n p ∧ packet ∈ (w.procs q).outbox

theorem inputOf_arrives (w : World) (e : Event) (p : Pid) (i : Input)
    (h : inputOf w e = some (p, i)) : Arrives w e p i := by
  cases e with
  | connect q suffix now =>
    simp only [inputOf] at h
    split at h
    · next hg =>
      cases h
      exact ⟨suffix, rfl, hg.1, rfl, hg.2⟩
    · cases h
  | message q s req now =>
    simp only [inputOf] at h
    split at h
    · next hws =>
      cases h
      exact ⟨rfl, Or.inl hws⟩
    · next hws =>
      cases h
      exact ⟨rfl, Or.inr hws⟩
    · cases h
  | peerClose q s =>
    simp only [inputOf] at h
    split at h
    · next hws =>
      cases h
      exact ⟨rfl, hws⟩
    · cases h
  | wsError q s =>
    simp only [inputOf] at h
    split at h
    · next hws =>
      cases h
      exact ⟨rfl, Or.inl hws⟩
    · next hws =>
      cases h
      exact ⟨rfl, Or.inr hws⟩
    · cases h
  | wsClose q s =>
    simp only [inputOf] at h
    split at h
    · next hws =>
      cases h
      exact ⟨rfl, hws⟩
    · cases h
  | exec q outcome => cases h
  | reply q =>
    simp only [inputOf] at h
    split at h
    · cases h
    · next c r rest hans =>
      cases h
      refine ⟨rfl, ?_⟩
      rw [hans]
      exact List.mem_cons_self ..
  | deliver q n t =>
    simp only [inputOf] at h
    split at h
    · cases h
    · next packet hget =>
      split at h
      · next hurl =>
        cases h
        exact ⟨hurl, q, n, rfl, List.mem_of_getElem? hget⟩
      · cases h

end NodeServer

import NodeServer.Proof.RoomErrors
import NodeServer.Proof.KeyTypes

/-! # The room list

`getRoomList` takes the room keys from one `KEYS` and then reads them one at a
time, each read waiting for the one before. What it resolves to is the set of rooms
at the execution of `KEYS`. It resolves only if no reply on the way is an error
and no room is closed before its key is read: the inner promise of the loop is
settled by no other reply. -/

namespace NodeServer

open DBModelKeys

/-! ### The promise of an operation -/

/- The calls a step makes its process issue. -/
def World.issues (w : World) (e : Event) : List Call :=
  match inputOf w e with
  | some (p, i) => ((takeOff w e).procs p).issued p i
  | none => []

deriving instance DecidableEq for RespData, ResData, Handler

/- A promise that is kept by a chain of calls: it waits for the call at a place in
the queue, is resolved by a callback, or is lost when a callback neither resolves
it nor goes on. -/
inductive Promise where
  | waiting (n : ℕ)
  | resolved (answer : Handler)
  | lost
deriving DecidableEq

/- The promise after a step of the system. -/
def Promise.next (p : Pid) (w : World) (e : Event) : Promise → Promise
  | .waiting n =>
    match e with
    | .reply q =>
      if q = p then
        match n with
        | 0 =>
          match w.resolves (.reply p) with
          | some answer => .resolved answer
          | none =>
            if w.issues (.reply p) = [] then .lost else .waiting ((w.procs p).calls.length - 1)
        | n + 1 => .waiting n
      else .waiting n
    | _ => .waiting n
  | promise => promise

/- The promise after a run. -/
def Promise.after (p : Pid) (promise : Promise) (tr : List (World × Event)) : Promise :=
  tr.foldl (fun promise a => promise.next p a.1 a.2) promise

theorem Promise.after_snoc (p : Pid) (promise : Promise) (tr : List (World × Event)) (w : World)
    (e : Event) : promise.after p (tr ++ [(w, e)]) = (promise.after p tr).next p w e := by
  simp [Promise.after]

/- Only replies to its process move a promise on. -/
theorem Promise.next_waiting {w : World} {e : Event} {p : Pid} {n : ℕ} (hne : e ≠ .reply p) :
    (Promise.waiting n).next p w e = .waiting n := by
  cases e with
  | reply q =>
    have hq : q ≠ p := by
      rintro rfl
      exact hne rfl
    simp only [Promise.next, hq, if_false]
  | _ => rfl

/- What a step does to the call at one place of a queue: it is executed, its
callback runs, or it moves up. -/
inductive QueueStep (p : Pid) (w : World) (e : Event) (v : World) (n : ℕ) (c : Call) :
    Option Store.Reply → Prop
  | executed (r : Store.Reply) (other : e ≠ .reply p) (run : Executed w v e p c r)
      (place : (v.procs p).queue[n]? = some (c, some r)) : QueueStep p w e v n c none
  | called (r : Store.Reply) (first : n = 0) (reply : e = .reply p)
      (run : Handled w v e p (.reply c r) ((takeOff w e).procs p)) :
      QueueStep p w e v n c (some r)
  | moved (o : Option Store.Reply) (m : ℕ) (other : n ≠ 0 ∨ e ≠ .reply p)
      (next : (Promise.waiting n).next p w e = .waiting m)
      (place : (v.procs p).queue[m]? = some (c, o)) : QueueStep p w e v n c o

/- A promise keeps to the place of its call. -/
theorem step_queue {w v : World} {e : Event} {p : Pid} {n : ℕ} {c : Call} {o : Option Store.Reply}
    (hw : WF w) (hs : step w e = some v) (hc : (w.procs p).queue[n]? = some (c, o)) :
    QueueStep p w e v n c o := by
  cases step_place hw hs hc with
  | executed r other run place => exact .executed r other run place
  | called r first reply run => exact .called r first reply run
  | stays o other place => exact .moved o n (Or.inr other) (Promise.next_waiting other) place
  | moves o m next reply place =>
    subst next reply
    exact .moved o m (Or.inl (Nat.succ_ne_zero m)) (by simp only [Promise.next, if_true]) place

/-! ### The list -/

/- `keys` are the keys of the rooms in a state, each once. -/
def Snapshot (z : World) (keys : List Str) : Prop :=
  keys.Nodup ∧ ∀ k, k ∈ keys ↔
    (∃ value, z.db.get k = some value) ∧ Glob.stringmatch roomListPattern k = true

/- A list without duplicates that has every room of all these moments and only
rooms of some of them. -/
structure Accurate (moments : List World) (list : List Str) : Prop where
  nodup : list.Nodup
  complete : ∀ t, (∀ z ∈ moments, z.db.get (roomPattern t) ≠ none) → t ∈ list
  sound : ∀ t ∈ list, ∃ z ∈ moments, z.db.get (roomPattern t) ≠ none

theorem roomPattern_listed (t : Str) : Glob.stringmatch roomListPattern (roomPattern t) = true :=
  (roomListPattern_iff _).mpr ⟨t, by simp [roomPattern]⟩

theorem Snapshot.accurate {z : World} {moments : List World} {list : List Str}
    (h : Snapshot z (list.map roomPattern)) (hz : z ∈ moments) : Accurate moments list where
  nodup := h.1.of_map _
  complete t ht := by
    obtain ⟨value, hv⟩ := Option.ne_none_iff_exists'.mp (ht z hz)
    have hmem := (h.2 (roomPattern t)).mpr ⟨⟨value, hv⟩, roomPattern_listed t⟩
    obtain ⟨t', ht', heq⟩ := List.mem_map.mp hmem
    rwa [(roomPattern_inj t' t).mp heq] at ht'
  sound t ht := by
    obtain ⟨⟨value, hv⟩, -⟩ := (h.2 (roomPattern t)).mp (List.mem_map_of_mem ht)
    exact ⟨z, hz, Option.ne_none_iff_exists'.mpr ⟨value, hv⟩⟩

/-- A listed key that is still there holds the id it is made of. -/
theorem hget_room {w : World} {key res : Str} {order : List Str} (hw : WF w)
    (hlisted : Glob.stringmatch roomListPattern key = true)
    (hr : (Store.hget key RoomIdKey w.db).inOrder order = some (.bulk res)) :
    key = roomPattern res := by
  obtain ⟨t, rfl⟩ := (roomListPattern_iff key).mp hlisted
  have hform : RoomIdKey ++ ['-'] ++ t = roomPattern t := by simp [roomPattern]
  rw [hform] at hr ⊢
  cases hk : w.db.get (roomPattern t) with
  | none => simp [Store.hget, hk, Store.Reply.inOrder, Store.Reply.listed] at hr
  | some value =>
    obtain ⟨n, rfl, rfl⟩ := entry_room w.own w.db hw.db hk
    have hres : natText n = res := by
      simpa [Store.hget, hk, Store.Reply.inOrder, Store.Reply.listed] using hr
    rw [hres]

/- The replies that the callback of a call of `getRoomList` goes on with. -/
def Call.listsOn : Call → Store.Reply → Bool
  | .roomListKeys (some _) _, .array _ => true
  | .roomListGet _ _ _ _, .bulk _ => true
  | _, _ => false

/- A call of `getRoomList` for the handler `h`, with its reply, once it is there. The keys read
and to be read are those of one moment, and what is read is the id in the key. -/
inductive Listing (h : Handler) (moments : List World) : Call → Option Store.Reply → Prop
  | keys (user : Option User) (o : Option Store.Reply)
      (found : ∀ keys, o = some (.array keys) → ∃ z ∈ moments, Snapshot z keys) :
      Listing h moments (.roomListKeys user h) o
  | get (key : Str) (rest list : List Str) (o : Option Store.Reply)
      (found : ∃ z ∈ moments, Snapshot z (list.map roomPattern ++ key :: rest))
      (read : ∀ res, o = some (.bulk res) → key = roomPattern res) :
      Listing h moments (.roomListGet key rest list h) o

/- What the callback of a call of `getRoomList` does: it reads the next key,
resolves with the list, or does neither. -/
inductive ListsOn (h : Handler) (moments : List World) (c : Call) (r : Store.Reply)
    (answer : Option Handler) (news : List Call) : Prop
  | next (d : Call) (good : c.listsOn r = true) (pending : answer = none) (issued : news = [d])
      (listing : Listing h moments d none)
  | ends (list : List Str) (good : c.listsOn r = true)
      (resolved : answer = some (h.result (.roomList list) none))
      (found : ∃ z ∈ moments, Snapshot z (list.map roomPattern))
  | stuck (bad : c.listsOn r = false) (pending : answer = none) (issued : news = [])

section

variable {hd : Handler} {moments : List World} {c : Call} {o : Option Store.Reply} {w v : World}
  {e : Event} {p : Pid} {n : ℕ}

theorem Listing.later (h : Listing hd moments c o) (rest : List World) :
    Listing hd (moments ++ rest) c o := by
  cases h with
  | keys user o found =>
    refine .keys user o fun keys heq => ?_
    obtain ⟨z, hz, hsnap⟩ := found keys heq
    exact ⟨z, List.mem_append_left _ hz, hsnap⟩
  | get key rest' list o found read =>
    obtain ⟨z, hz, hsnap⟩ := found
    exact .get key rest' list o ⟨z, List.mem_append_left _ hz, hsnap⟩ read

/-- The keys found are those of the state in which `KEYS` is executed, and a room
key holds the id of its room. -/
theorem Listing.executed {r : Store.Reply} (h : Listing hd moments c none) (hw : WF w)
    (hx : Executed w v e p c r) : Listing hd (moments ++ [w]) c (some r) := by
  cases h with
  | keys user o found =>
    refine .keys user _ fun keys heq => ⟨w, by simp, ?_⟩
    cases heq
    rcases hx.db with ⟨order, -, -, hr⟩ | ⟨message, -, -, hr⟩
    · obtain ⟨heq, hnodup, hmem⟩ := Store.keys_inOrder order roomListPattern w.db _ hr
      cases heq
      exact ⟨hnodup, hmem⟩
    · cases hr
  | get key rest list o found read =>
    obtain ⟨z, hz, hsnap⟩ := found
    refine .get key rest list _ ⟨z, List.mem_append_left _ hz, hsnap⟩ fun res heq => ?_
    cases heq
    rcases hx.db with ⟨order, -, -, hr⟩ | ⟨message, -, -, hr⟩
    · have hlisted := ((hsnap.2 key).mp (by simp)).2
      exact hget_room hw hlisted hr
    · cases hr

theorem Listing.lists {r : Store.Reply} (h : Listing hd moments c (some r)) (p : Pid) (x y : Proc) :
    ListsOn hd moments c r (y.replyAnswer c r) (x.replyCalls p c r) := by
  cases h with
  | keys user o found =>
    cases user with
    | none => exact .stuck rfl rfl rfl
    | some user =>
      cases r with
      | array keys =>
        obtain ⟨z, hz, hsnap⟩ := found keys rfl
        cases keys with
        | nil => exact .ends [] rfl rfl ⟨z, hz, hsnap⟩
        | cons key rest =>
          exact .next _ rfl rfl rfl
            (.get key rest [] none ⟨z, hz, hsnap⟩ fun res heq => by cases heq)
      | _ => exact .stuck rfl rfl rfl
  | get key rest list o found read =>
    cases r with
    | bulk res =>
      obtain ⟨z, hz, hsnap⟩ := found
      rw [read res rfl, List.append_cons] at hsnap
      have hread : (list ++ [res]).map roomPattern = list.map roomPattern ++ [roomPattern res] := by
        simp
      rw [← hread] at hsnap
      cases rest with
      | nil =>
        rw [List.append_nil] at hsnap
        exact .ends (list ++ [res]) rfl rfl ⟨z, hz, hsnap⟩
      | cons key' rest =>
        exact .next _ rfl rfl rfl
          (.get key' rest (list ++ [res]) none ⟨z, hz, hsnap⟩ fun res heq => by cases heq)
    | _ =>
      cases rest with
      | nil => exact .stuck rfl rfl rfl
      | cons => exact .stuck rfl rfl rfl

end

/-! ### The operation in a run -/

/- If a promise is handed the reply it waits for, its callback goes on with it. -/
def Promise.Fed (p : Pid) (w : World) (e : Event) (promise : Promise) : Prop :=
  promise = .waiting 0 → e = .reply p →
    ∀ c r, (w.procs p).answered.head? = some (c, r) → c.listsOn r = true

/- Every reply on the way of a run lets the operation go on. -/
def Promise.AllFed (p : Pid) : Promise → List (World × Event) → Prop
  | _, [] => True
  | promise, (w, e) :: tr => promise.Fed p w e ∧ (promise.next p w e).AllFed p tr

theorem Promise.allFed_snoc (p : Pid) (promise : Promise) (tr : List (World × Event)) (w : World)
    (e : Event) : promise.AllFed p (tr ++ [(w, e)]) ↔
      promise.AllFed p tr ∧ (promise.after p tr).Fed p w e := by
  induction tr generalizing promise with
  | nil => simp [Promise.AllFed, Promise.after]
  | cons a tr ih =>
    rw [List.cons_append, Promise.AllFed, Promise.AllFed, ih, and_assoc]
    rfl

/- The promise is resolved, or a call of its operation is in flight. -/
def Promise.Kept (p : Pid) (v : World) : Promise → Prop
  | .waiting n => ∃ c o, (v.procs p).queue[n]? = some (c, o) ∧ c.listsRooms = true
  | .resolved _ => True
  | .lost => False

/- What a step does to an operation that waits at a place of the queue. -/
inductive ListStep (p : Pid) (h : Handler) (moments : List World) (w : World) (e : Event) (v : World)
    (n : ℕ) : Prop
  | waits (m : ℕ) (c : Call) (o : Option Store.Reply) (fed : (Promise.waiting n).Fed p w e)
      (next : (Promise.waiting n).next p w e = .waiting m)
      (place : (v.procs p).queue[m]? = some (c, o)) (listing : Listing h moments c o)
  | ends (list : List Str) (fed : (Promise.waiting n).Fed p w e)
      (next : (Promise.waiting n).next p w e = .resolved (h.result (.roomList list) none))
      (found : ∃ z ∈ moments, Snapshot z (list.map roomPattern))
  | stuck (starved : ¬ (Promise.waiting n).Fed p w e)
      (next : (Promise.waiting n).next p w e = .lost)

section

variable {hd : Handler} {moments : List World} {c : Call} {o : Option Store.Reply} {w v : World}
  {e : Event} {p : Pid} {n : ℕ}

theorem Promise.fed_of_ne (hne : n ≠ 0 ∨ e ≠ .reply p) : (Promise.waiting n).Fed p w e := by
  intro hn he
  rcases hne with h | h
  · exact absurd (Promise.waiting.inj hn) h
  · exact absurd he h

/-- The callback of the call a promise waits for. -/
theorem Listing.called {r : Store.Reply} (hl : Listing hd moments c (some r)) (hw : WF w)
    (h : Handled w v (.reply p) p (.reply c r) ((takeOff w (.reply p)).procs p)) :
    ListStep p hd moments w (.reply p) v 0 := by
  have hhead : (w.procs p).answered.head? = some (c, r) := by
    rw [h.answered]
    rfl
  have hfed : (Promise.waiting 0).Fed p w (.reply p) ↔ c.listsOn r = true := by
    simp [Promise.Fed, hhead]
  have hanswer : w.resolves (.reply p) = (w.procs p).replyAnswer c r := h.resolves
  have hissues : w.issues (.reply p) = ((takeOff w (.reply p)).procs p).replyCalls p c r := by
    rw [World.issues, h.input]
    rfl
  obtain ⟨hold, hnew⟩ := h.queue hw
  have hlen : (w.procs p).calls.length - 1 = ((takeOff w (.reply p)).procs p).queue.length := by
    rw [← queue_length, hold]
    simp [Input.replied]
  cases hl.lists p ((takeOff w (.reply p)).procs p) (w.procs p) with
  | next d good pending issued listing =>
    refine .waits ((takeOff w (.reply p)).procs p).queue.length d none (hfed.mpr good) ?_ ?_ listing
    · simp [Promise.next, hanswer, pending, hissues, issued, hlen]
    · rw [hnew, Proc.issued, issued]
      simp
  | ends list good resolved found =>
    refine .ends list (hfed.mpr good) ?_ found
    simp only [Promise.next, if_true, hanswer, resolved]
  | stuck bad pending issued =>
    refine .stuck (fun h => ?_) ?_
    · rw [hfed.mp h] at bad
      cases bad
    · simp only [Promise.next, if_true, hanswer, pending, hissues, issued]

theorem Listing.step (hl : Listing hd moments c o) (hw : WF w) (hs : step w e = some v)
    (hc : (w.procs p).queue[n]? = some (c, o)) : ListStep p hd (moments ++ [w]) w e v n := by
  cases step_queue hw hs hc with
  | executed r other run place =>
    exact .waits n c (some r) (Promise.fed_of_ne (Or.inr other)) (Promise.next_waiting other) place
      (hl.executed hw run)
  | called r first reply run =>
    subst first reply
    exact (hl.later [w]).called hw run
  | moved o m other next place =>
    exact .waits m c o (Promise.fed_of_ne other) next place (hl.later [w])

theorem ListStep.place (h : ListStep p hd moments w e v n) {m : ℕ}
    (hm : (Promise.waiting n).next p w e = .waiting m) :
    ∃ c o, (v.procs p).queue[m]? = some (c, o) ∧ Listing hd moments c o := by
  cases h with
  | waits m c o fed next place listing =>
    rw [next] at hm
    cases hm
    exact ⟨c, o, place, listing⟩
  | ends list fed next found =>
    rw [next] at hm
    cases hm
  | stuck starved next =>
    rw [next] at hm
    cases hm

theorem ListStep.fed_iff (h : ListStep p hd moments w e v n) :
    (Promise.waiting n).next p w e ≠ .lost ↔ (Promise.waiting n).Fed p w e := by
  cases h with
  | waits m c o fed next place listing => simp [next, fed]
  | ends list fed next found => simp [next, fed]
  | stuck starved next => simp [next, starved]

theorem ListStep.accurate (h : ListStep p hd moments w e v n) {answer : Handler}
    (hm : (Promise.waiting n).next p w e = .resolved answer) :
    ∃ list, answer = hd.result (.roomList list) none ∧ Accurate moments list := by
  cases h with
  | waits m c o fed next place listing =>
    rw [next] at hm
    cases hm
  | ends list fed next found =>
    rw [next] at hm
    cases hm
    obtain ⟨z, hz, hsnap⟩ := found
    exact ⟨list, rfl, hsnap.accurate hz⟩
  | stuck starved next =>
    rw [next] at hm
    cases hm

end

/- While the promise waits its call is in the queue, and it is lost with the
first reply that the callback does not go on with. -/
structure ListRun (p : Pid) (h : Handler) (start : Promise) (tr : List (World × Event)) (v : World) :
    Prop where
  wf : WF v
  place : ∀ n, start.after p tr = .waiting n → ∃ c o, (v.procs p).queue[n]? = some (c, o) ∧
    Listing h (tr.map Prod.fst) c o
  fed : start.after p tr ≠ .lost ↔ start.AllFed p tr

section

variable {p : Pid} {hd : Handler} {start : Promise} {tr : List (World × Event)} {w v v' : World}
  {e : Event} {n : ℕ}

theorem ListRun.listStep (h : ListRun p hd start tr v) (hp : start.after p tr = .waiting n)
    (hs : step v e = some v') : ListStep p hd (tr.map Prod.fst ++ [v]) v e v' n := by
  obtain ⟨c, o, hc, hl⟩ := h.place n hp
  exact hl.step h.wf hs hc

theorem ListRun.step (h : ListRun p hd start tr v) (hs : step v e = some v') :
    ListRun p hd start (tr ++ [(v, e)]) v' := by
  refine ⟨h.wf.step hs, ?_, ?_⟩
  · intro m hm
    rw [Promise.after_snoc] at hm
    rw [List.map_append]
    cases hp : start.after p tr with
    | waiting n =>
      rw [hp] at hm
      exact (h.listStep hp hs).place hm
    | resolved answer =>
      rw [hp] at hm
      cases hm
    | lost =>
      rw [hp] at hm
      cases hm
  · rw [Promise.after_snoc, Promise.allFed_snoc, ← h.fed]
    cases hp : start.after p tr with
    | waiting n => simp [(h.listStep hp hs).fed_iff]
    | resolved answer => simp [Promise.next, Promise.Fed]
    | lost => simp [Promise.next]

theorem ListRun.kept_iff (h : ListRun p hd start tr v) :
    (start.after p tr).Kept p v ↔ start.AllFed p tr := by
  rw [← h.fed]
  cases hp : start.after p tr with
  | waiting n =>
    obtain ⟨c, o, hc, hl⟩ := h.place n hp
    have hlists : c.listsRooms = true := by
      cases hl with
      | keys => rfl
      | get => rfl
    simp only [Promise.Kept, ne_eq, reduceCtorEq, not_false_eq_true, iff_true]
    exact ⟨c, o, hc, hlists⟩
  | resolved answer => simp [Promise.Kept]
  | lost => simp [Promise.Kept]

end

/-- The request issues `KEYS` after the calls already in flight. -/
theorem listRun_begins {w v : World} {p : Pid} {s : Str} {req : Request} {now : ℕ} (hw : WF w)
    (hroute : getRouterByName req.route = some (.handler .roomList))
    (hs : step w (.message p s req now) = some v) :
    ListRun p ((w.procs p).getBaseRespond s req.id .roomList) (.waiting (w.procs p).calls.length) [] v where
  wf := hw.step hs
  place n hn := by
    cases hn
    obtain ⟨q, i, x, h⟩ := step_handled hs rfl
    obtain ⟨rfl, rfl⟩ := inputOf_message h.input
    obtain ⟨hold, hnew⟩ := h.queue hw
    have hbase : x.getBaseRespond s req.id .roomList = (w.procs p).getBaseRespond s req.id .roomList := by
      simp only [Proc.getBaseRespond, Proc.getUserWithSocket, h.userList]
    have hissued : x.issued p (.message s req now) =
        [.roomListKeys (x.getUserWithSocket s) ((w.procs p).getBaseRespond s req.id .roomList)] := by
      simp only [Proc.issued, hroute, ← hbase]
      rfl
    refine ⟨_, none, ?_, .keys (x.getUserWithSocket s) none fun keys heq => by cases heq⟩
    rw [hnew, hissued, ← queue_length, hold]
    simp [Input.replied]
  fed := by simp [Promise.after, Promise.AllFed]

theorem listRun_path {w₀ v₁ v : World} {p : Pid} {s : Str} {req : Request} {now : ℕ}
    {tr : List (World × Event)} (hreach : Reachable w₀)
    (hroute : getRouterByName req.route = some (.handler .roomList))
    (hs : step w₀ (.message p s req now) = some v₁) (hrun : Run.Path step v₁ tr v) :
    ListRun p ((w₀.procs p).getBaseRespond s req.id .roomList) (.waiting (w₀.procs p).calls.length) tr v :=
  Run.Path.invariant _ (listRun_begins (WF.initial.reach hreach) hroute hs) (fun _ _ _ _ h => h.step) hrun

/- Only the last callback of the operation resolves its promise. -/
theorem Promise.next_resolved {p : Pid} {w : World} {e : Event} {n : ℕ} {answer : Handler}
    (h : (Promise.waiting n).next p w e = .resolved answer) :
    e = .reply p ∧ w.resolves e = some answer := by
  have he : e = .reply p := by
    by_contra hne
    rw [Promise.next_waiting hne] at h
    cases h
  subst he
  refine ⟨rfl, ?_⟩
  cases n with
  | succ n =>
    simp only [Promise.next, if_true] at h
    cases h
  | zero =>
    simp only [Promise.next, if_true] at h
    split at h
    · next answer' ha =>
      cases h
      exact ha
    · split at h
      · cases h
      · cases h

/-- A room list that is resolved while the connection is open is what the client gets. -/
theorem room_list_responded {w₀ v₁ v v' : World} {p : Pid} {s : Str} {req : Request} {now n : ℕ}
    {tr : List (World × Event)} {e : Event} {answer : Handler} (hreach : Reachable w₀)
    (hroute : getRouterByName req.route = some (.handler .roomList))
    (hs : step w₀ (.message p s req now) = some v₁) (hrun : Run.Path step v₁ tr v)
    (hwaits : (Promise.waiting (w₀.procs p).calls.length).after p tr = .waiting n)
    (hstep : step v e = some v') (hends : (Promise.waiting n).next p v e = .resolved answer)
    (hopen : (v.procs p).ws s = some .opened) :
    ∃ resData list, (v'.procs p).responses s = (v.procs p).responses s ++ [resData] ∧
      resData.id = req.id ∧ resData.route = .roomList ∧ resData.data = .roomList list ∧
      Accurate (tr.map Prod.fst ++ [v]) list := by
  have hlist := listRun_path hreach hroute hs hrun
  obtain ⟨list, rfl, haccurate⟩ := (hlist.listStep hwaits hstep).accurate hends
  obtain ⟨hsocket, hid, hroute'⟩ := getBaseRespond_request (w₀.procs p) s req.id .roomList
  obtain ⟨rfl, ha⟩ := Promise.next_resolved hends
  have hours : v.ResolvesFor p s (.reply p) := by
    intro answer' ha'
    rw [ha] at ha'
    cases ha'
    obtain ⟨q, i, x, h⟩ := step_handled hstep rfl
    obtain ⟨rfl, -⟩ := inputOf_reply h.input
    exact ⟨by rw [h.input]; rfl, hsocket⟩
  refine ⟨(((w₀.procs p).getBaseRespond s req.id .roomList).result (.roomList list) none).resData, list, ?_, hid,
    hroute', rfl, haccurate⟩
  rw [step_responses hlist.wf hstep hopen hours, ha]
  rfl

/- If the next step resolves the promise, it does so with an accurate list: the
moments of the call are those from the request to this step. -/
def ListsAccurately (p : Pid) (start : Promise) (tr : List (World × Event)) (v : World) : Prop :=
  ∀ n e v' answer, start.after p tr = .waiting n → step v e = some v' →
    (Promise.waiting n).next p v e = .resolved answer →
    ∃ list, answer.resData.data = .roomList list ∧ Accurate (tr.map Prod.fst ++ [v]) list

/-- A room list that is resolved is accurate. Its promise stays unresolved with no
call in flight exactly after a reply that its callback does not go on with: an error,
the empty reply of a room closed in the meantime, or any reply for a client who
is not logged in. -/
theorem room_list_answered_iff {w₀ v₁ v : World} {p : Pid} {s : Str} {req : Request} {now : ℕ}
    {tr : List (World × Event)} (hreach : Reachable w₀)
    (hroute : getRouterByName req.route = some (.handler .roomList))
    (hs : step w₀ (.message p s req now) = some v₁) (hrun : Run.Path step v₁ tr v) :
    (((Promise.waiting (w₀.procs p).calls.length).after p tr).Kept p v ↔
      (Promise.waiting (w₀.procs p).calls.length).AllFed p tr) ∧
    ListsAccurately p (.waiting (w₀.procs p).calls.length) tr v := by
  have hlist := listRun_path hreach hroute hs hrun
  refine ⟨hlist.kept_iff, ?_⟩
  intro n e v' answer hn hstep hanswer
  obtain ⟨list, rfl, haccurate⟩ := (hlist.listStep hn hstep).accurate hanswer
  exact ⟨list, rfl, haccurate⟩

/- A asks for the room list, with two users logged in and room 1 open. -/
def listRequest : Request := Route.roomList.request none .undefined

def listAskedTrace : List Event := twoUsersTrace ++ [.message 0 (socketIdOf ['A']) listRequest 6]

def listAsked : World := Run.ends step World.initial listAskedTrace

theorem listAsked_step :
    step twoUsers (.message 0 (socketIdOf ['A']) listRequest 6) = some listAsked :=
  Run.step_ends (by decide +kernel)

theorem listRequest_route : getRouterByName listRequest.route = some (.handler .roomList) := by
  decide

/- All but the last callback of the list. -/
def listReadTrace : List Event := served 0 [roomPattern ['1']] ++ [.exec 0 (.done [])]

theorem room_list_of_one_room :
    (Promise.waiting (twoUsers.procs 0).calls.length).AllFed 0
      (Run.steps step listAsked (listReadTrace ++ [.reply 0])) ∧
    Accurate ((Run.steps step listAsked listReadTrace).map Prod.fst ++
      [Run.ends step listAsked listReadTrace]) [['1']] := by
  obtain ⟨hrun, hlast, hwaits, hends, hresolved⟩ :
      (Run.runs step listAsked listReadTrace).isSome = true ∧
      (Run.runs step listAsked (listReadTrace ++ [.reply 0])).isSome = true ∧
      (Promise.waiting (twoUsers.procs 0).calls.length).after 0
        (Run.steps step listAsked listReadTrace) = .waiting 0 ∧
      (Promise.waiting 0).next 0 (Run.ends step listAsked listReadTrace) (.reply 0) =
        .resolved (((twoUsers.procs 0).getBaseRespond (socketIdOf ['A']) listRequest.id
          .roomList).result (.roomList [['1']]) none) ∧
      (Promise.waiting (twoUsers.procs 0).calls.length).after 0
        (Run.steps step listAsked (listReadTrace ++ [.reply 0])) =
        .resolved (((twoUsers.procs 0).getBaseRespond (socketIdOf ['A']) listRequest.id
          .roomList).result (.roomList [['1']]) none) := by
    decide +kernel
  obtain ⟨hkept, -⟩ := room_list_answered_iff twoUsers_reachable listRequest_route listAsked_step
    (Run.path_ends _ hlast)
  obtain ⟨-, haccurate⟩ := room_list_answered_iff twoUsers_reachable listRequest_route
    listAsked_step (Run.path_ends _ hrun)
  obtain ⟨list, hdata, hlist⟩ := haccurate 0 _ _ _ hwaits (Run.step_ends hlast) hends
  cases hdata
  refine ⟨hkept.mp ?_, hlist⟩
  rw [hresolved]
  trivial

/- B closes the room between the two reads of A. -/
def listClosedTrace : List Event :=
  [.exec 0 (.done [roomPattern ['1']]),
    .message 1 (socketIdOf ['B']) (Route.roomClose.request none (.str ['1'])) 7] ++
    served 1 [roomPattern ['1']] ++ served 1 [] ++ [.reply 0] ++ served 0 []

theorem room_list_lost :
    ¬ ∀ (w₀ v₁ v : World) (p : Pid) (s : Str) (req : Request) (now : ℕ)
      (tr : List (World × Event)), Reachable w₀ →
      getRouterByName req.route = some (.handler .roomList) →
      step w₀ (.message p s req now) = some v₁ → Run.Path step v₁ tr v →
      ((Promise.waiting (w₀.procs p).calls.length).after p tr).Kept p v ∧
        ListsAccurately p (.waiting (w₀.procs p).calls.length) tr v := by
  intro hall
  obtain ⟨hrun, hlost⟩ :
      (Run.runs step listAsked listClosedTrace).isSome = true ∧
      (Promise.waiting (twoUsers.procs 0).calls.length).after 0
        (Run.steps step listAsked listClosedTrace) = .lost := by
    decide +kernel
  obtain ⟨hkept, -⟩ := hall twoUsers listAsked _ 0 _ listRequest _ _ twoUsers_reachable
    listRequest_route listAsked_step (Run.path_ends listClosedTrace hrun)
  rw [hlost] at hkept
  exact hkept

end NodeServer

import NodeServer.Model.Routers
import NodeServer.Lib.Run

/-! # The system: processes sharing one Redis

Any process may act at any time. A Redis call goes through three separate
steps: it is issued by its process, executed by Redis (`exec`), and answered
(`reply`), in the order of issue on each process. A notice emitted to another
process is delivered once, at any time and in any order. -/

namespace NodeServer

structure World where
  db : Store.Db
  procs : Pid → Proc
  -- the socket ids generated so far, on any process
  socketIds : List Str

def World.initial : World := ⟨∅, fun _ => Proc.initial, []⟩

def World.setProc (w : World) (p : Pid) (x : Proc) : World :=
  { w with procs := fun q => if q = p then x else w.procs q }

/- How Redis answers the oldest unexecuted call of a process: it runs, with the
order it lists keys or members in, or fails without running. -/
inductive Outcome where
  | done (order : List Str)
  | failed (message : Str)

inductive Event where
  | connect (p : Pid) (suffix : Str) (now : ℕ)
  | message (p : Pid) (s : Str) (req : Request) (now : ℕ)
  | peerClose (p : Pid) (s : Str)
  | wsError (p : Pid) (s : Str)
  | wsClose (p : Pid) (s : Str)
  | exec (p : Pid) (outcome : Outcome)
  | reply (p : Pid)
  | deliver (q : Pid) (i : ℕ) (p : Pid)

/- The input an event is for its process, when the process can receive it. A
websocket gives no message after its close event, and its close event only
after it has begun to close. -/
def inputOf (w : World) : Event → Option (Pid × Input)
  | .connect p suffix now =>
    if base36 suffix ∧ socketIdOf suffix ∉ w.socketIds then
      some (p, .connect (socketIdOf suffix) now) else none
  | .message p s req now =>
    match (w.procs p).ws s with
    | some .opened | some .closing => some (p, .message s req now)
    | _ => none
  | .peerClose p s => if (w.procs p).ws s = some .opened then some (p, .peerClose s) else none
  | .wsError p s =>
    match (w.procs p).ws s with
    | some .opened | some .closing => some (p, .wsError s)
    | _ => none
  | .wsClose p s => if (w.procs p).ws s = some .closing then some (p, .wsClose s) else none
  | .exec _ _ => none
  | .reply p =>
    match (w.procs p).answered with
    | [] => none
    | (c, r) :: _ => some (p, .reply c r)
  | .deliver q i p =>
    match (w.procs q).outbox[i]? with
    | none => none
    | some packet => if packet.url = appInfo p then some (p, .packet packet) else none

/- What is taken off a queue before the input is handled. -/
def takeOff (w : World) : Event → World
  | .connect _ suffix _ => { w with socketIds := socketIdOf suffix :: w.socketIds }
  | .reply p => w.setProc p { w.procs p with answered := (w.procs p).answered.tail }
  | .deliver q i _ => w.setProc q { w.procs q with outbox := (w.procs q).outbox.eraseIdx i }
  | _ => w

def execStep (w : World) (p : Pid) (outcome : Outcome) : Option World :=
  match (w.procs p).sent, outcome with
  | [], _ => none
  | c :: rest, .done order =>
    ((c.txn.run w.db).2.inOrder order).map fun r =>
      { w.setProc p { w.procs p with
          sent := rest, answered := (w.procs p).answered ++ [(c, r)] } with
        db := (c.txn.run w.db).1 }
  | c :: rest, .failed message =>
    some (w.setProc p { w.procs p with
      sent := rest, answered := (w.procs p).answered ++ [(c, .error message)] })

def step (w : World) (e : Event) : Option World :=
  match e with
  | .exec p outcome => execStep w p outcome
  | e => (inputOf w e).map fun pi =>
    (takeOff w e).setProc pi.1 (react pi.1 pi.2 ((takeOff w e).procs pi.1))

/-- The signal handler (app.js:23) on process `p`, up to `process.exit()`. -/
def World.shutdown (w : World) (p : Pid) : World :=
  w.setProc p (w.procs p).logoutAllLocalUsers

/- Nothing is pending: no Redis call, no callback, no forwarded notice and no
close event. -/
def Quiescent (w : World) : Prop :=
  ∀ p, (w.procs p).sent = [] ∧ (w.procs p).answered = [] ∧ (w.procs p).outbox = [] ∧
    ∀ s, (w.procs p).ws s ≠ some .closing

/- Every world some run of the system reaches. -/
def Reachable (w : World) : Prop := Run.Reach step (fun _ _ => True) World.initial w

end NodeServer

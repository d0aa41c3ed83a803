import RustKV.Connection
import RustKV.LibContracts
import RustKV.LibLoops
import RustKV.ServerBlocking

/-! The life of the server after its start-up: the accept loop of
`run_with_listener_and_shutdown`, the tasks of the clients and of the workers, and the shutdown.
Every loop makes at most a number of rounds that is chosen when its task starts. -/
namespace RustKV
open Decimal Tasks Prog

/-- The channel of the shutdown signal, a `watch` of tokio. -/
structure Watch where
  value : Bool
  version : ℕ
  closed : Bool

inductive Worker where
  | ttl
  | rewrite
  deriving DecidableEq

def Worker.round : Worker → Round
  | .ttl => .ttl
  | .rewrite => .rewrite

inductive LifeTask (ι : Type) where
  | main
  | worker (w : Worker)
  | client (i : ι)
  deriving DecidableEq

/-- The set of the client tasks takes in a client only. -/
def LifeTask.clients {ι : Type} : LifeTask ι → List ι
  | .client i => [i]
  | _ => []

/-- What a `select!` waits for beside the signal. -/
inductive Source where
  | readValue
  | tick (w : Worker)
  | accept

abbrev Source.Item (ι : Type) : Source → Type
  | .readValue => IoResult (Option Request)
  | .tick _ => Unit
  | .accept => IoResult ι

/-- The branch that a `select!` takes. A receiver fails when its sender is gone. -/
inductive Branch (α : Type) where
  | changed (result : Except Unit Unit)
  | other (item : α)

/-- `own` are the actions of the server's own task on the log, `park` ends the rounds of a loop. -/
inductive LifeAct (ι : Type) (n : ℕ) where
  | begin
  | spawn (task : LifeTask ι)
  | select (source : Source)
  | borrow
  | incrConnectedClients
  | decrConnectedClients
  | joinNext
  | join (w : Worker)
  | abortAll
  | own (a : ServerAct n)
  | park

abbrev LifeAct.Answer {ι : Type} {n : ℕ} : LifeAct ι n → Type
  | .select source => Branch (source.Item ι)
  | .borrow => Bool
  | .joinNext => Option Unit
  | .own a => a.Answer
  | .park => Empty
  | _ => Unit

abbrev LifeM (ι : Type) (n : ℕ) (α : Type) : Type :=
  Prog (LoopAct (ServerAct n) (LifeAct ι n)) (LoopAct.Answer ServerAct.Answer LifeAct.Answer) α

namespace LifeM
variable {ι : Type} {n : ℕ} {α : Type}

def outer (a : LifeAct ι n) : LifeM ι n a.Answer := perform (LoopAct.outer a)

/-- One round of a task. -/
def call (p : ServerM n α) : LifeM ι n α := p.lift .inner fun _ answer => answer

/-- A part of the server's own task. -/
def own (p : ServerM n α) : LifeM ι n α :=
  p.lift (fun a => LoopAct.outer (LifeAct.own a)) fun _ answer => answer

def park : LifeM ι n α := .act (.outer .park) Empty.elim

/-- `changed.is_err() || *shutdown.borrow()` -/
def stops : Except Unit Unit → LifeM ι n Bool
  | .error () => return true
  | .ok () => outer .borrow

end LifeM

section Programs
variable {ι : Type} {n : ℕ} (settings : Settings)
open LifeM

/-- The loops around a `select!`: the signal, or the end of its sender, ends the loop. What else
comes is handled by `body`, which may end the loop too. -/
def selectLoop (source : Source) (body : source.Item ι → LifeM ι n (Option (IoResult Unit))) :
    ℕ → LifeM ι n (IoResult Unit)
  | 0 => park
  | rounds + 1 => do
    match ← outer (.select source) with
    | .changed changed => do
      if ← stops changed then return .ok () else selectLoop source body rounds
    | .other item => do
      match ← body item with
      | some result => return result
      | none => selectLoop source body rounds

/-- What `handle_client` does with what `read_value` returns. -/
def handleRead : IoResult (Option Request) → LifeM ι n (Option (IoResult Unit))
  | .error error => return some (.error error)
  | .ok none => return some (.ok ())
  | .ok (some q) => do
    match ← call ((Round.client q).prog settings) with
    | .error error => return some (.error error)
    | .ok () => return none

def handleClient : ℕ → LifeM ι n (IoResult Unit) := selectLoop .readValue (handleRead settings)

/-- The task that is spawned for a client. -/
def clientTask (rounds : ℕ) : LifeM ι n (IoResult Unit) := do
  outer .begin
  outer .incrConnectedClients
  let result ← handleClient settings rounds
  outer .decrConnectedClients
  return result

def handleTick (w : Worker) (_ : Unit) : LifeM ι n (Option (IoResult Unit)) := do
  let _ ← call (w.round.prog settings)
  return none

/-- `start_ttl_worker` and `start_aof_rewrite_worker` -/
def workerTask (w : Worker) (rounds : ℕ) : LifeM ι n (IoResult Unit) := do
  outer .begin
  selectLoop (.tick w) (handleTick settings w) rounds

def handleAccepted : IoResult ι → LifeM ι n (Option (IoResult Unit))
  | .error error => return some (.error error)
  | .ok i => do
    outer (.spawn (.client i))
    return none

def acceptLoop : ℕ → LifeM ι n (IoResult Unit) := selectLoop .accept handleAccepted

def joinClients : ℕ → LifeM ι n Unit
  | 0 => park
  | rounds + 1 => do
    match ← outer .joinNext with
    | none => return ()
    | some () => joinClients rounds

/-- What is left to do when all tasks are joined. -/
def lastFlush : ServerM n (IoResult Unit) := do
  ServerM.acquire .engine .write
  let result ← AofEngine.flush
  ServerM.release .engine .write
  return result

def startWorkers : LifeM ι n Unit := do
  outer (.spawn (.worker .ttl))
  if settings.aofPath.isSome then outer (.spawn (.worker .rewrite)) else return ()

/-- What comes after the accept loop. If it ends with an error, the set of the client tasks is
dropped, which aborts them. -/
def shutDown (rounds : ℕ) : IoResult Unit → LifeM ι n (IoResult Unit)
  | .error error => do
    outer .abortAll
    return .error error
  | .ok () => do
    joinClients rounds
    outer (.join .ttl)
    if settings.aofPath.isSome then do
      outer (.join .rewrite)
      own lastFlush
    else return .ok ()

/-- What `run_with_listener_and_shutdown` does once the log is loaded. -/
def mainTask (rounds : ℕ) : LifeM ι n (IoResult Unit) := do
  startWorkers settings
  let accepted ← acceptLoop rounds
  shutDown settings rounds accepted

/-- The start of a task, with the number of its rounds. -/
structure LifeCall (ι : Type) where
  task : LifeTask ι
  rounds : ℕ

def LifeCall.prog (call : LifeCall ι) : LifeM ι n (IoResult Unit) :=
  match call.task with
  | .main => mainTask settings call.rounds
  | .worker w => workerTask settings w call.rounds
  | .client _ => clientTask settings call.rounds

end Programs

/-- The state that all tasks share. `seen` is the version of the signal that a receiver has seen,
`members` are the tasks in the set of the clients, `received` the requests of each client. -/
structure LifeState (ι : Type) (n : ℕ) where
  server : ServerState (LifeTask ι) n
  watch : Watch
  seen : LifeTask ι → ℕ
  spawned : LifeTask ι → Bool
  members : List ι
  ended : LifeTask ι → Bool
  aborted : List ι
  connection : ι → Connection
  received : ι → List Request

/-- The reads of `read_value` after which it waits for another one. -/
inductive Connection.Absorbs : Connection → Connection → Prop
  | refl (conn : Connection) : Absorbs conn conn
  | read {m : ℕ} {seg buffer : Bytes} {stream : List Bytes} {conn : Connection} :
      parseRespOrPanic frameSize buffer = some (.error .incomplete) → buffer.length ≤ m →
      seg ≠ [] → (buffer ++ seg).length ≤ isizeMax → (buffer ++ seg).length ≤ m →
      Absorbs ⟨stream, buffer ++ seg, m⟩ conn → Absorbs ⟨seg :: stream, buffer, m⟩ conn

section System
variable {ι : Type} [DecidableEq ι] {n : ℕ}

abbrev LifeStatus (ι : Type) (n : ℕ) :=
  Status (LifeCall ι) (LoopAct (ServerAct n) (LifeAct ι n))
    (LoopAct.Answer ServerAct.Answer LifeAct.Answer) (ServerLock n) LockMode (IoResult Unit)

abbrev LifeConfig (ι : Type) (n : ℕ) :=
  Config (LifeTask ι) (LifeCall ι) (LoopAct (ServerAct n) (LifeAct ι n))
    (LoopAct.Answer ServerAct.Answer LifeAct.Answer) (ServerLock n) LockMode (LifeState ι n)
    (IoResult Unit)

def LifeAct.use : LoopAct (ServerAct n) (LifeAct ι n) → LockUse (ServerLock n) LockMode
  | .inner a | .outer (.own a) => a.use
  | _ => .none

/-- The actions at which a task may wait, and at which it is gone if it is aborted. -/
def LifeAct.Awaits : LoopAct (ServerAct n) (LifeAct ι n) → Prop
  | .inner (.acquire ..) | .inner (.file _) | .inner (.writeValue _)
  | .inner (.kv (.db (.acquire ..))) | .outer .begin | .outer (.select _) => True
  | _ => False

def ServerState.connectedClients (s : ServerState (LifeTask ι) n) : UInt64 :=
  s.kv.stats.counters .connectedClients

def ServerState.setConnectedClients (s : ServerState (LifeTask ι) n) (value : UInt64) :
    ServerState (LifeTask ι) n :=
  { s with kv := { s.kv with stats := { s.kv.stats with
      counters := Function.update s.kv.stats.counters .connectedClients value } } }

namespace LifeState

/-- What a call of `read_value` has done that a `select!` drops for the signal. -/
inductive Reads (s : LifeState ι n) : LifeTask ι → Source → LifeState ι n → Prop
  | none {t : LifeTask ι} {source : Source} : Reads s t source s
  | some {i : ι} {conn : Connection} : (s.connection i).Absorbs conn → Reads s (.client i) .readValue
      { s with connection := Function.update s.connection i conn }

/-- What an action of a task may do. -/
inductive Does (s : LifeState ι n) : (task : LifeTask ι) →
    (a : LoopAct (ServerAct n) (LifeAct ι n)) →
    Option (LoopAct.Answer ServerAct.Answer LifeAct.Answer a) → LifeState ι n → Prop
  | call {t : LifeTask ι} {a : ServerAct n} {answer : Option a.Answer}
      {server : ServerState (LifeTask ι) n} : s.server.Does t a answer server →
      Does s t (.inner a) answer { s with server := server }
  | own {t : LifeTask ι} {a : ServerAct n} {answer : Option a.Answer}
      {server : ServerState (LifeTask ι) n} : s.server.Does t a answer server →
      Does s t (.outer (.own a)) answer { s with server := server }
  | begin {t : LifeTask ι} : s.spawned t = true → Does s t (.outer .begin) (some ()) s
  -- a new task, with a copy of the receiver
  | spawn {t task : LifeTask ι} : s.spawned task = false →
      Does s t (.outer (.spawn task)) (some ())
        { s with
          spawned := Function.update s.spawned task true
          seen := Function.update s.seen task (s.seen t)
          members := task.clients ++ s.members }
  -- the signal, or the end of its sender
  | changed {t : LifeTask ι} {source : Source} {s' : LifeState ι n} : s.Reads t source s' →
      s.seen t ≠ s.watch.version → Does s t (.outer (.select source)) (some (.changed (.ok ())))
        { s' with seen := Function.update s.seen t s.watch.version }
  | closed {t : LifeTask ι} {source : Source} {s' : LifeState ι n} : s.Reads t source s' →
      s.seen t = s.watch.version → s.watch.closed = true →
      Does s t (.outer (.select source)) (some (.changed (.error ()))) s'
  | borrow {t : LifeTask ι} : Does s t (.outer .borrow) (some s.watch.value) s
  | frame {i : ι} {q : Request} {conn : Connection} :
      (s.connection i).readValue = (some (.ok (some q.frame)), conn) →
      Does s (.client i) (.outer (.select .readValue)) (some (.other (.ok (some q))))
        { s with
          connection := Function.update s.connection i conn
          received := Function.update s.received i (s.received i ++ [q]) }
  | hangup {i : ι} {conn : Connection} :
      (s.connection i).readValue = (some (.ok none), conn) →
      Does s (.client i) (.outer (.select .readValue)) (some (.other (.ok none)))
        { s with connection := Function.update s.connection i conn }
  | readError {i : ι} {error : IoError} {conn : Connection} :
      (s.connection i).readValue = (some (.error error), conn) →
      Does s (.client i) (.outer (.select .readValue)) (some (.other (.error error)))
        { s with connection := Function.update s.connection i conn }
  | socketError {i : ι} {error : IoError} :
      Does s (.client i) (.outer (.select .readValue)) (some (.other (.error error))) s
  | readPanic {i : ι} : (s.connection i).readValue.1 = none →
      Does s (.client i) (.outer (.select .readValue)) none s
  | tick {w : Worker} : Does s (.worker w) (.outer (.select (.tick w))) (some (.other ())) s
  | accept {t : LifeTask ι} {i : ι} : s.spawned (.client i) = false →
      Does s t (.outer (.select .accept)) (some (.other (.ok i))) s
  | acceptError {t : LifeTask ι} {error : IoError} :
      Does s t (.outer (.select .accept)) (some (.other (.error error))) s
  | incrConnectedClients {t : LifeTask ι} : Does s t (.outer .incrConnectedClients) (some ())
      { s with server := s.server.setConnectedClients (s.server.connectedClients + 1) }
  | decrConnectedClients {t : LifeTask ι} : Does s t (.outer .decrConnectedClients) (some ())
      { s with server := if s.server.connectedClients = 0 then s.server
          else s.server.setConnectedClients (s.server.connectedClients - 1) }
  | joinNone {t : LifeTask ι} : s.members = [] → Does s t (.outer .joinNext) (some none) s
  | joinNext {t : LifeTask ι} {i : ι} : i ∈ s.members → s.ended (.client i) = true →
      Does s t (.outer .joinNext) (some (some ())) { s with members := s.members.erase i }
  | join {t : LifeTask ι} {w : Worker} : s.ended (.worker w) = true →
      Does s t (.outer (.join w)) (some ()) s
  | abortAll {t : LifeTask ι} : Does s t (.outer .abortAll) (some ())
      { s with aborted := s.members, members := [] }
  | aborted {i : ι} {a : LoopAct (ServerAct n) (LifeAct ι n)} : i ∈ s.aborted →
      LifeAct.Awaits a → Does s (.client i) a none s

/-- What happens around the tasks: time goes on, peers stop reading or read again, the signal is
sent or its sender is dropped, and the runtime notes that a task has ended. -/
inductive Passes (status : LifeTask ι → LifeStatus ι n) (s : LifeState ι n) :
    LifeState ι n → Prop
  | server {server : ServerState (LifeTask ι) n} :
      s.server.clock.instant ≤ server.clock.instant →
      server = { s.server with clock := server.clock, stalled := server.stalled } →
      Passes status s { s with server := server }
  | send {value : Bool} : s.watch.closed = false →
      Passes status s { s with watch := ⟨value, s.watch.version + 1, false⟩ }
  | close : Passes status s { s with watch := { s.watch with closed := true } }
  | ended {t : LifeTask ι} {result : Option (IoResult Unit)} : status t = .done result →
      Passes status s { s with ended := Function.update s.ended t true }

/-- The state after the start-up: no other task is spawned, and the signal has not been sent. -/
def started (server : ServerState (LifeTask ι) n) (sends : ι → List Bytes) (maxFrameSize : ℕ) :
    LifeState ι n where
  server := server
  watch := ⟨false, 0, false⟩
  seen := fun _ => 0
  spawned
    | .main => true
    | _ => false
  members := []
  ended := fun _ => false
  aborted := []
  connection i := Connection.new (sends i) maxFrameSize
  received := fun _ => []

end LifeState

/-- The server as tasks side by side: its own task, the workers and the clients. -/
def lifeSystem (settings : Settings) : System (LifeTask ι) (LifeCall ι)
    (LoopAct (ServerAct n) (LifeAct ι n)) (LoopAct.Answer ServerAct.Answer LifeAct.Answer)
    (ServerLock n) LockMode (LifeState ι n) (IoResult Unit) where
  prog := LifeCall.prog settings
  starts t call := call.task = t ∧ (t = .worker .rewrite → settings.aofPath.isSome)
  again _ _ := false
  use := LifeAct.use
  compatible := LockMode.Compatible
  does t a s answer s' := s.Does t a answer s'
  environment := LifeState.Passes

section Rules
variable {V : Type} {K : Contract (LoopAct (ServerAct n) (LifeAct ι n))
    (LoopAct.Answer ServerAct.Answer LifeAct.Answer) (List (ServerLock n × LockMode)) V}
  {Q : IoResult Unit → List (ServerLock n × LockMode) → V → Prop} {I : V → Prop}
  {held : List (ServerLock n × LockMode)} {source : Source}
  {body : source.Item ι → LifeM ι n (Option (IoResult Unit))}
open Contract

omit [DecidableEq ι] in
/-- The actions of a loop around a `select!`. -/
theorem only_selectLoop {ok : LoopAct (ServerAct n) (LifeAct ι n) → Prop} (hpark : ok (.outer .park))
    (hselect : ok (.outer (.select source))) (hborrow : ok (.outer .borrow))
    (hbody : ∀ item, (body item).Only ok) (rounds : ℕ) : (selectLoop source body rounds).Only ok := by
  induction rounds with
  | zero => exact ⟨hpark, fun r => r.elim⟩
  | succ rounds ih =>
    refine only_bind (only_perform hselect) fun r => ?_
    rcases r with (_ | _) | item
    · exact only_pure _
    · refine only_bind (only_perform hborrow) fun sent => ?_
      cases sent with
      | true => exact only_pure _
      | false => exact ih
    · refine only_bind (hbody item) fun r => ?_
      cases r with
      | none => exact ih
      | some result => exact only_pure _

omit [DecidableEq ι] in
theorem only_joinClients {ok : LoopAct (ServerAct n) (LifeAct ι n) → Prop} (hpark : ok (.outer .park))
    (hjoin : ok (.outer .joinNext)) (rounds : ℕ) : (joinClients rounds : LifeM ι n Unit).Only ok := by
  induction rounds with
  | zero => exact ⟨hpark, fun r => r.elim⟩
  | succ rounds ih =>
    refine only_bind (only_perform hjoin) fun r => ?_
    cases r with
    | none => exact only_pure _
    | some => exact ih

omit [DecidableEq ι] in
/-- A round whose actions keep an assertion. -/
theorem keeps_call {settings : Settings} {round : Round} {v : V}
    (hafter : ∀ a held, K.after a held = (LifeAct.use a).after held)
    (hstable : ∀ held v v', I v → K.rely held v v' → I v')
    (hact : ∀ a held v, I v → K.duty (.inner a) held v ∧
      ∀ r v', K.does (.inner a) held v r v' → I v') (h : I v) :
    K.Keeps (fun _ held v => held = [] ∧ I v) (LifeM.call (round.prog settings)) [] v := by
  refine keeps_lift ?_
  refine (keeps_of_follows (I := fun guards held v => guards = held ∧ I v)
    (@Round.follows_prog _ settings round) ?_ ?_ ⟨rfl, h⟩).mono ?_
  · rintro guards held v v' ⟨rfl, hv⟩ hrely
    exact ⟨rfl, hstable guards v v' hv hrely⟩
  · rintro guards a held v - ⟨rfl, hv⟩
    obtain ⟨hduty, hnext⟩ := hact a guards v hv
    refine ⟨hduty, ?_⟩
    rintro r v' ⟨r', hdoes, rfl⟩
    exact ⟨(hafter (.inner a) guards).symm, hnext _ v' hdoes⟩
  · rintro _ held v ⟨guards, rfl, rfl, hv⟩
    exact ⟨rfl, hv⟩

omit [DecidableEq ι] in
/-- A loop around a `select!` that keeps an assertion from round to round. -/
theorem keeps_selectLoop (hafter : ∀ a, K.after a held = (LifeAct.use a).after held)
    (hstable : ∀ v v', I v → K.rely held v v' → I v')
    (hpark : ∀ v, I v → K.duty (.outer .park) held v)
    (hselect : ∀ v, I v → K.duty (.outer (.select source)) held v)
    (hclosed : ∀ v v', I v → K.does (.outer (.select source)) held v (.changed (.error ())) v' →
      K.Keeps Q (pure (.ok ())) held v')
    (hchanged : ∀ v v', I v → K.does (.outer (.select source)) held v (.changed (.ok ())) v' →
      K.Keeps (fun sent held' v => held' = held ∧
        (sent = true → K.Keeps Q (pure (.ok ())) held v) ∧ (sent = false → I v))
        (LifeM.outer .borrow) held v')
    (hother : ∀ item v v', I v → K.does (.outer (.select source)) held v (.other item) v' →
      K.Keeps (fun r held' v => held' = held ∧
        r.elim (I v) fun result => K.Keeps Q (pure result) held v) (body item) held v')
    (rounds : ℕ) {v : V} (h : I v) : K.Keeps Q (selectLoop source body rounds) held v := by
  induction rounds generalizing v with
  | zero => exact fun v' hv => ⟨hpark v' (hstable v v' h hv), fun r => r.elim⟩
  | succ rounds ih =>
    refine keeps_perform_bind fun v' hv => ?_
    have hv' := hstable v v' h hv
    refine ⟨hselect v' hv', fun r v'' hdoes => ?_⟩
    rw [hafter]
    rcases r with (_ | _) | item
    · exact hclosed v' v'' hv' hdoes
    · refine keeps_bind (hchanged v' v'' hv' hdoes) ?_
      rintro sent _ v₃ ⟨rfl, hsent, hunsent⟩
      cases sent with
      | true => exact hsent rfl
      | false => exact ih (hunsent rfl)
    · refine keeps_bind (hother item v' v'' hv' hdoes) ?_
      rintro (_ | result) _ v₃ ⟨rfl, hnext⟩
      · exact ih hnext
      · exact hnext

end Rules

end System

section Player
variable {ι : Type} [DecidableEq ι] {n : ℕ}

namespace LifeState

/-- What else than the signal ends a wait: `next` is the client that connects next, and `requests`
are all that clients ask for. -/
def arrives (next : ι) (requests : List Request) (t : LifeTask ι) (s : LifeState ι n) :
    (source : Source) → Option (source.Item ι × LifeState ι n)
  | .tick w => if t = .worker w then some ((), s) else none
  | .accept => if s.spawned (.client next) = false then some (.ok next, s) else none
  | .readValue =>
    match t with
    | .client i =>
      match (s.connection i).readValue with
      | (some (.ok none), conn) =>
        some (.ok none, { s with connection := Function.update s.connection i conn })
      | (some (.ok (some frame)), conn) => (requests.find? fun q => q.frame = frame).map fun q =>
        (.ok (some q), { s with
          connection := Function.update s.connection i conn
          received := Function.update s.received i (s.received i ++ [q]) })
      | _ => none
    | _ => none

/-- The actions as a handler, when nothing fails and the signal comes first. -/
def handler (next : ι) (requests : List Request) (t : LifeTask ι) :
    (a : LoopAct (ServerAct n) (LifeAct ι n)) → LifeState ι n →
      Option (Option (LoopAct.Answer ServerAct.Answer LifeAct.Answer a) × LifeState ι n)
  | .inner a, s => (s.server.handler t a).map fun (answer, server) =>
    (answer, { s with server := server })
  | .outer (.own a), s => (s.server.handler t a).map fun (answer, server) =>
    (answer, { s with server := server })
  | .outer .begin, s => if s.spawned t = true then some (some (), s) else none
  | .outer (.spawn task), s =>
    if s.spawned task = false then some (some (), { s with
      spawned := Function.update s.spawned task true
      seen := Function.update s.seen task (s.seen t)
      members := task.clients ++ s.members })
    else none
  | .outer (.select source), s =>
    if s.seen t ≠ s.watch.version then
      some (some (.changed (.ok ())), { s with seen := Function.update s.seen t s.watch.version })
    else if s.watch.closed = true then some (some (.changed (.error ())), s)
    else (s.arrives next requests t source).map fun (item, s') => (some (.other item), s')
  | .outer .borrow, s => some (some s.watch.value, s)
  | .outer .incrConnectedClients, s => some (some (), { s with
      server := s.server.setConnectedClients (s.server.connectedClients + 1) })
  | .outer .decrConnectedClients, s => some (some (), { s with
      server := if s.server.connectedClients = 0 then s.server
        else s.server.setConnectedClients (s.server.connectedClients - 1) })
  | .outer .joinNext, s =>
    match s.members.find? fun i => s.ended (.client i) with
    | some i => some (some (some ()), { s with members := s.members.erase i })
    | none => if s.members = [] then some (some none, s) else none
  | .outer (.join w), s => if s.ended (.worker w) = true then some (some (), s) else none
  | .outer .abortAll, s => some (some (), { s with aborted := s.members, members := [] })
  | .outer .park, _ => none

theorem does_of_arrives {next : ι} {requests : List Request} {t : LifeTask ι} {s s' : LifeState ι n}
    {source : Source} {item : source.Item ι} (h : s.arrives next requests t source = some (item, s')) :
    s.Does t (.outer (.select source)) (some (.other item)) s' := by
  cases source with
  | tick w =>
    unfold arrives at h
    dsimp only at h
    split_ifs at h with ht
    cases h
    rw [ht]
    exact .tick
  | accept =>
    unfold arrives at h
    dsimp only at h
    split_ifs at h with hnew
    cases h
    exact .accept hnew
  | readValue =>
    cases t with
    | main | worker => cases h
    | client i =>
      unfold arrives at h
      dsimp only at h
      split at h
      · rename_i conn hread
        cases h
        exact .hangup hread
      · rename_i frame conn hread
        obtain ⟨q, hq, heq⟩ := Option.map_eq_some_iff.mp h
        cases heq
        have hframe : q.frame = frame := by simpa using List.find?_some hq
        rw [← hframe] at hread
        exact .frame hread
      · cases h

theorem handles_lifeSystem {settings : Settings} (next : ι) (requests : List Request) :
    Handles (lifeSystem settings) (handler (n := n) next requests) := by
  intro t a s answer s' h
  have hserver {a : ServerAct n} {answer : Option a.Answer} {server : ServerState (LifeTask ι) n}
      (h : s.server.handler t a = some (answer, server)) : s.server.Does t a answer server :=
    @handles_serverSystem (LifeTask ι) _ n settings (fun _ => .client) (fun _ => True) t a s.server
      answer server h
  cases a with
  | inner a =>
    obtain ⟨⟨answer', server⟩, hs, heq⟩ := Option.map_eq_some_iff.mp h
    cases heq
    exact .call (hserver hs)
  | outer o =>
    unfold handler at h
    cases o with
    | own a =>
      obtain ⟨⟨answer', server⟩, hs, heq⟩ := Option.map_eq_some_iff.mp h
      cases heq
      exact .own (hserver hs)
    | «begin» =>
      dsimp only at h
      split_ifs at h with hspawned
      cases h
      exact .begin hspawned
    | spawn task =>
      dsimp only at h
      split_ifs at h with hnew
      cases h
      exact .spawn hnew
    | select source =>
      dsimp only at h
      split_ifs at h with hseen hclosed
      · cases h
        exact .changed .none hseen
      · cases h
        exact .closed .none (not_not.mp hseen) hclosed
      · obtain ⟨⟨item, s₁⟩, hs, heq⟩ := Option.map_eq_some_iff.mp h
        cases heq
        exact does_of_arrives hs
    | borrow =>
      cases h
      exact .borrow
    | incrConnectedClients =>
      cases h
      exact .incrConnectedClients
    | decrConnectedClients =>
      cases h
      exact .decrConnectedClients
    | joinNext =>
      dsimp only at h
      split at h
      · rename_i i hfind
        cases h
        exact .joinNext (List.mem_of_find?_eq_some hfind) (by simpa using List.find?_some hfind)
      · split_ifs at h with hmembers
        cases h
        exact .joinNone hmembers
    | join w =>
      dsimp only at h
      split_ifs at h with hended
      cases h
      exact .join hended
    | abortAll =>
      cases h
      exact .abortAll
    | park => cases h

end LifeState

/-- What may happen around the tasks. -/
inductive LifeEvent (ι : Type) where
  | send
  | close
  | ended (t : LifeTask ι)

def LifeEvent.around : LifeEvent ι → (LifeTask ι → LifeStatus ι n) → LifeState ι n →
    Option (LifeState ι n)
  | .send, _, s =>
    if s.watch.closed = false then
      some { s with watch := ⟨true, s.watch.version + 1, false⟩ }
    else none
  | .close, _, s => some { s with watch := { s.watch with closed := true } }
  | .ended t, status, s =>
    match status t with
    | .done _ => some { s with ended := Function.update s.ended t true }
    | _ => none

theorem surrounds_lifeSystem {settings : Settings} :
    Surrounds (lifeSystem (ι := ι) (n := n) settings) LifeEvent.around := by
  intro e status s s' h
  cases e with
  | send =>
    unfold LifeEvent.around at h
    dsimp only at h
    split_ifs at h with hclosed
    cases h
    exact .send hclosed
  | close =>
    cases h
    exact .close
  | ended t =>
    unfold LifeEvent.around at h
    dsimp only at h
    split at h
    · rename_i result hdone
      cases h
      exact .ended hdone
    · cases h

end Player

end RustKV

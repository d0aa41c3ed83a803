import RustKV.LibFairLocks
import RustKV.Server
import RustKV.ShardedTasks

/-! The server as tasks side by side: clients that send requests, the worker that rewrites the log
and the worker that removes expired entries. A step is one action of one task. -/
namespace RustKV
open Decimal Tasks Prog ServerM

inductive ServerLock (n : ℕ) where
  | aof (lock : AofLock)
  | db (lock : DbLock n)
  deriving DecidableEq

section Uses
variable {n : ℕ}

def KvAct.use : KvAct n → LockUse (DbLock n) LockMode
  | .db a => a.use
  | .stat _ => .none

def ServerAct.use : ServerAct n → LockUse (ServerLock n) LockMode
  | .kv a => a.use.map .db
  | .acquire lock mode => .acquire (.aof lock) mode
  | .release lock mode => .release (.aof lock) mode
  | _ => .none

end Uses

/-- What does not change while the server runs. The log is on if it has a path. -/
structure Settings where
  hash : String → UInt64
  toJson : ServerStatsSnapshot → KvResult String
  aofPath : Option Path
  rewriteMinSize : ℕ

/-- What a task does between two rests: a client handles a request, a worker a tick. -/
inductive Round where
  | client (request : Request)
  | rewrite
  | ttl

inductive Role where
  | client
  | rewriteWorker
  | ttlWorker

def Role.makes (settings : Settings) : Role → Round → Prop
  | .client, .client _ => True
  | .rewriteWorker, .rewrite => settings.aofPath.isSome
  | .ttlWorker, .ttl => True
  | _, _ => False

/-- A client task ends with an error of its connection; a worker warns and goes on. -/
def Role.goesOn : Role → IoResult Unit → Bool
  | .client, .ok () => true
  | .client, .error _ => false
  | _, _ => true

def Round.prog {n : ℕ} (settings : Settings) : Round → ServerM n (IoResult Unit)
  | .client q => handleFrame settings.hash settings.toJson settings.aofPath.isSome q.frame
  | .rewrite =>
    match settings.aofPath with
    | some path => maybeRewriteAof path settings.rewriteMinSize
    | none => return .ok ()
  | .ttl => do
    ttlTick
    return .ok ()

/-- The state that the tasks share. A task is `stalled` while its peer does not read. -/
structure ServerState (ι : Type) (n : ℕ) where
  clock : Clock
  kv : Kv n
  files : FileSystem
  engineFile : Option File
  sent : ι → List RespValue
  stalled : ι → Bool

section System
variable {ι : Type} [DecidableEq ι] {n : ℕ}

abbrev ServerStatus (n : ℕ) :=
  Status Round (ServerAct n) ServerAct.Answer (ServerLock n) LockMode (IoResult Unit)

abbrev ServerConfig (ι : Type) (n : ℕ) :=
  Config ι Round (ServerAct n) ServerAct.Answer (ServerLock n) LockMode (ServerState ι n)
    (IoResult Unit)

namespace ServerState

/-- The server as the task `i` sees it. -/
def world (s : ServerState ι n) (i : ι) : World n := ⟨s.kv, s.files, s.engineFile, s.sent i⟩

def put (s : ServerState ι n) (i : ι) (w : World n) : ServerState ι n :=
  { s with
    kv := w.kv
    files := w.files
    engineFile := w.engineFile
    sent := Function.update s.sent i w.sent }

/-- What an action of the task `i` may do. Reads and writes of files may fail, and so may the
connection; what is written to a peer that does not read has to wait. -/
inductive Does (s : ServerState ι n) (i : ι) :
    (a : ServerAct n) → Option a.Answer → ServerState ι n → Prop
  | exec {a : ServerAct n} {fault : Option Fault} {answer : Option a.Answer} {w : World n} :
      World.exec s.clock fault a (s.world i) = (answer, w) →
      (∀ value, a = .writeValue value → s.stalled i = false) → Does s i a answer (s.put i w)
  | fileError {a : FileAct} {error : IoError} :
      Does s i (.file a) (some (Except.error error : IoResult a.Value)) s
  | sendError {value : RespValue} {error : IoError} : s.stalled i = false →
      Does s i (.writeValue value) (some (Except.error error : IoResult Unit)) s

end ServerState

/-- `stalls` tells when the peer of a client may stop reading. -/
def serverSystem (settings : Settings) (roles : ι → Role) (stalls : ServerStatus n → Prop) :
    System ι Round (ServerAct n) ServerAct.Answer (ServerLock n) LockMode (ServerState ι n)
      (IoResult Unit) where
  prog := Round.prog settings
  starts i round := (roles i).makes settings round
  again i := (roles i).goesOn
  use := ServerAct.use
  compatible := LockMode.Compatible
  does i a s answer s' := s.Does i a answer s'
  environment status s s' := s.clock.instant ≤ s'.clock.instant ∧
    s' = { s with clock := s'.clock, stalled := s'.stalled } ∧
    ∀ i, s'.stalled i = true → s.stalled i = true ∨ stalls (status i)

end System

section Discipline
variable {n : ℕ}

def dbRank : DbLock n → ℕ
  | .global => 0
  | .shard _ => 1

/-- The order of the locks. -/
def ServerLock.rank : ServerLock n → ℕ
  | .aof .rewriteBarrier => 0
  | .aof .engine => 1
  | .db lock => 2 + dbRank lock

/-- A client whose round logs a write. -/
def Round.LogsWrite (settings : Settings) (round : Round) : Prop :=
  ∃ q cmd, round = .client q ∧ parseCommand q.frame = some (.ok cmd) ∧ isWriteCommand cmd = true ∧
    settings.aofPath.isSome = true

/-- The guards of a client that logs a write. -/
def writeGuards : List (ServerLock n × LockMode) :=
  [(.aof .engine, .write), (.aof .rewriteBarrier, .read)]

/-- What a client holds while it writes a reply: both guards if it has logged a write. -/
def ReplyGuards (settings : Settings) (round : Round) (held : List (ServerLock n × LockMode)) : Prop :=
  ¬ round.LogsWrite settings ∧ held = [] ∨ round.LogsWrite settings ∧ held = writeGuards

/-- The locks are taken in their order, and replies are written under their guards. -/
def lockOrder (settings : Settings) (round : Round) :
    Protocol (ServerAct n) ServerAct.Answer (List (ServerLock n × LockMode)) where
  allows held a := (ascending (R := ServerAct.Answer) ServerAct.use ServerLock.rank).allows held a ∧
    ((∃ value, a = .writeValue value) → ReplyGuards settings round held)
  next held a _ := a.use.after held

/-- The actions that are neither on locks nor on the connection. -/
def ServerAct.Quiet (a : ServerAct n) : Prop := a.use = .none ∧ ∀ value, a ≠ .writeValue value

/-- The actions on files and on the field of the engine, and a look at the clock. -/
def ServerAct.OnFiles : ServerAct n → Prop
  | .file _ | .engineFile | .setEngineFile _ | .kv (.db .now) => True
  | _ => False

theorem ServerAct.OnFiles.quiet {a : ServerAct n} (h : a.OnFiles) : a.Quiet := by
  unfold ServerAct.OnFiles at h
  split at h
  · exact ⟨rfl, nofun⟩
  · exact ⟨rfl, nofun⟩
  · exact ⟨rfl, nofun⟩
  · exact ⟨rfl, nofun⟩
  · exact h.elim

section Rules
variable {settings : Settings} {round : Round} {held outer : List (ServerLock n × LockMode)} {α : Type}

theorem allows_of_quiet {a : ServerAct n} (ha : a.Quiet) :
    (lockOrder settings round).allows held a := by
  refine ⟨fun lock mode hl => ?_, ?_⟩
  · rw [ha.1] at hl
    cases hl
  · rintro ⟨value, hv⟩
    exact absurd hv (ha.2 value)

/-- A part of a program that uses neither locks nor the connection. -/
theorem follows_of_quiet {p : ServerM n α} (hp : p.Only ServerAct.Quiet) :
    p.Follows (lockOrder settings round) (fun held' _ => held' = held) held := by
  refine hp.follows (fun a ha => allows_of_quiet ha) (fun a r ha => ?_) fun _ => rfl
  change a.use.after held = held
  rw [ha.1]
  rfl

/-- The guards are those of the log. -/
def OuterGuards (outer : List (ServerLock n × LockMode)) : Prop :=
  ∀ guard ∈ outer, ∃ lock, guard.1 = .aof lock

/-- A part of a program that works on the database, within the locks of the log. -/
theorem follows_onKv {p : KvM n α}
    (hp : p.Follows (ascending KvAct.use dbRank) (fun held _ => held = []) [])
    (houter : OuterGuards outer) :
    (onKv p).Follows (lockOrder settings round) (fun held _ => held = outer) outer := by
  let embed (held : List (DbLock n × LockMode)) : List (ServerLock n × LockMode) :=
    held.map (fun guard => (.db guard.1, guard.2)) ++ outer
  have hinj : Function.Injective (ServerLock.db : DbLock n → ServerLock n) := fun _ _ => ServerLock.db.inj
  refine follows_lift (R := KvAct.Answer) (ρ := lockOrder settings round) embed (fun held a h => ?_)
    (fun held a r _ => ?_) (fun held x hx => ?_) hp
  · refine ⟨fun lock mode hl guard hg => ?_, ?_⟩
    · change a.use.map ServerLock.db = _ at hl
      cases ha : a.use with
      | none | release =>
        rw [ha] at hl
        cases hl
      | acquire lock' mode' =>
        rw [ha] at hl
        cases hl
        rcases List.mem_append.mp hg with hg | hg
        · obtain ⟨inner, hinner, rfl⟩ := List.mem_map.mp hg
          exact Nat.add_lt_add_left (h lock' mode ha inner hinner) 2
        · obtain ⟨lock, hlock⟩ := houter guard hg
          rw [hlock]
          cases lock with
          | rewriteBarrier => exact Nat.lt_of_lt_of_le Nat.zero_lt_two (Nat.le_add_right 2 _)
          | engine => exact Nat.lt_of_lt_of_le Nat.one_lt_two (Nat.le_add_right 2 _)
    · rintro ⟨value, hv⟩
      cases hv
  · refine LockUse.after_map hinj a.use held fun lock mode _ _ hg => ?_
    obtain ⟨lock', hlock⟩ := houter _ hg
    cases hlock
  · rw [hx]
    rfl

end Rules

section Databases

/-- An operation of the store takes its locks in their order. -/
theorem follows_kvOnDb {hash : String → UInt64} {kind : Kind} {α : Type} {p : DbM n α}
    {final : Progress n → α → Prop} (hp : p.Follows (stages hash kind) final ⟨.outside, []⟩)
    (hfinal : ∀ st x, final st x → st.stage = .left) :
    (KvM.onDb p).Follows (ascending KvAct.use dbRank) (fun held _ => held = []) [] := by
  refine follows_lift (R := DbAct.Answer) (ρ := ascending KvAct.use dbRank)
    (fun st : Progress n => st.stage.guards) (fun st a h => ?_) (fun st a r h => ?_)
    (fun st x hx => ?_) hp
  · intro lock mode hl guard hg
    change a.use = _ at hl
    cases h with
    | enter => simp [Stage.guards] at hg
    | lock =>
      cases hl
      rw [List.mem_singleton.mp hg]
      exact Nat.zero_lt_one
    | _ => cases hl
  · exact (Progress.guards_next r h).symm
  · rw [hfinal st x hx]
    rfl

def KvAct.OnStats : KvAct n → Prop
  | .stat _ => True
  | .db _ => False

theorem follows_stats {α : Type} {p : KvM n α} (hp : p.Only KvAct.OnStats) :
    p.Follows (ascending KvAct.use dbRank) (fun held _ => held = []) [] := by
  refine follows_of_lockFree (hp.mono fun a ha => ?_) []
  cases a with
  | db a => exact ha.elim
  | stat a => rfl

theorem only_count {α : Type} (outcome : DbOutcome α) :
    (count outcome : KvM n Unit).Only KvAct.OnStats :=
  only_bind (only_perform trivial) fun _ => only_perform trivial

open KvM in
theorem only_snapshot : (ServerStats.snapshot : KvM n _).Only KvAct.OnStats := by
  have hload (field : StatField) : (KvM.load field : KvM n _).Only KvAct.OnStats :=
    only_perform trivial
  refine only_bind (hload _) fun _ => only_bind (only_perform trivial) fun _ => ?_
  refine only_bind (only_perform trivial) fun _ => only_bind (only_perform trivial) fun _ => ?_
  refine only_bind (hload _) fun _ => only_bind (only_perform trivial) fun _ => ?_
  refine only_bind (hload _) fun _ => only_bind (hload _) fun _ => only_bind (hload _) fun _ => ?_
  refine only_bind (hload _) fun _ => only_bind (hload _) fun _ => only_bind (hload _) fun _ => ?_
  exact only_bind (hload _) fun _ => only_bind (hload _) fun _ => only_pure _

/-- Every command takes the locks of the store in their order. -/
theorem follows_runCommand {hash : String → UInt64} {toJson : ServerStatsSnapshot → KvResult String}
    (cmd : Command) : (runCommand (n := n) hash toJson cmd).Follows (ascending KvAct.use dbRank)
      (fun held _ => held = []) [] := by
  -- an operation on one key, and the statistics after it
  have hkey {β : Type} (key : String) (op : KeyOp) (rest : DbOutcome op.Result → KvM n β)
      (hrest : ∀ outcome, (rest outcome).Only KvAct.OnStats) :
      (KvM.onDb (ShardedDatabase.onShard hash key op) >>= rest).Follows
        (ascending KvAct.use dbRank) (fun held _ => held = []) [] := by
    refine follows_bind (follows_kvOnDb (follows_onShard key op) fun st _ h => by rw [h]) ?_
    rintro _ outcome rfl
    exact follows_stats (hrest outcome)
  have hcount {β : Type} (field : StatField) (outcome : DbOutcome β) (reply : RespValue) :
      (do KvM.fetchAdd field 1; count outcome; return reply : KvM n RespValue).Only
        KvAct.OnStats :=
    only_bind (only_perform trivial) fun _ => only_bind (only_count outcome) fun _ => only_pure reply
  cases cmd with
  | ping | unknown => exact follows_pure rfl
  | set key value expire =>
    exact hkey key (.set value expire) _ fun outcome => hcount _ outcome _
  | setPxAt key value ts =>
    exact hkey key (.setAtMs value ts) _ fun outcome => hcount _ outcome _
  | get key => exact hkey key .get _ fun outcome => hcount _ outcome _
  | exists' key =>
    exact hkey key .exists' _ fun outcome => only_bind (only_count outcome) fun _ => only_pure _
  | expire key seconds =>
    exact hkey key (.expire seconds) _ fun outcome =>
      only_bind (only_count outcome) fun _ => only_pure _
  | expireAt key ts =>
    exact hkey key (.expireAtMs ts) _ fun outcome =>
      only_bind (only_count outcome) fun _ => only_pure _
  | ttl key =>
    exact hkey key .ttl _ fun outcome => only_bind (only_count outcome) fun _ => only_pure _
  | del keys =>
    refine follows_bind (follows_kvOnDb (follows_del keys) fun st _ h => h.1) ?_
    rintro _ outcome rfl
    exact follows_stats (hcount _ outcome _)
  | keys =>
    refine follows_bind (follows_kvOnDb (@follows_keys _ hash) fun st _ h => by rw [h]) ?_
    rintro _ result rfl
    exact follows_pure rfl
  | flushDb =>
    refine follows_bind (follows_kvOnDb (@follows_flushdb _ hash) fun st _ h => by rw [h]) ?_
    rintro _ outcome rfl
    exact follows_stats (only_bind (only_perform trivial) fun _ => only_pure _)
  | info =>
    refine follows_bind (follows_kvOnDb (@follows_infoSnapshot _ hash) fun st _ h => by rw [h]) ?_
    rintro _ info rfl
    refine follows_stats (only_bind (only_perform trivial) fun _ => only_bind (only_perform trivial) fun _ => ?_)
    exact only_bind (only_perform trivial) fun _ => only_bind only_snapshot fun _ => only_pure _

theorem follows_executeCommand {hash : String → UInt64}
    {toJson : ServerStatsSnapshot → KvResult String} (cmd : Command) :
    (executeCommand (n := n) hash toJson cmd).Follows (ascending KvAct.use dbRank)
      (fun held _ => held = []) [] := by
  unfold executeCommand
  split_ifs
  · exact follows_runCommand cmd
  · refine follows_bind (follows_stats (only_perform trivial)) ?_
    rintro _ _ rfl
    exact follows_runCommand cmd

end Databases

section Files

theorem only_onFile (a : FileAct) : (onFile a : ServerM n _).Only ServerAct.OnFiles :=
  only_perform trivial

theorem only_andThen {α β : Type} {p : ServerM n (IoResult α)} {f : α → ServerM n (IoResult β)}
    (hp : p.Only ServerAct.OnFiles) (hf : ∀ a, (f a).Only ServerAct.OnFiles) :
    (andThen p f).Only ServerAct.OnFiles := by
  refine only_bind hp ?_
  rintro (error | a)
  · exact only_pure _
  · exact hf a

theorem only_now : (ServerM.now : ServerM n _).Only ServerAct.OnFiles := ⟨trivial, fun _ => trivial⟩

theorem only_fileMut : (AofEngine.fileMut : ServerM n _).Only ServerAct.OnFiles := by
  refine only_bind (only_perform trivial) ?_
  rintro (_ | file) <;> exact only_pure _

theorem only_flush : (AofEngine.flush : ServerM n _).Only ServerAct.OnFiles :=
  only_andThen only_fileMut fun _ => only_andThen (only_onFile _) fun _ => only_onFile _

theorem only_append (cmd : Command) : (AofEngine.append cmd : ServerM n _).Only ServerAct.OnFiles := by
  refine only_bind only_now fun now => ?_
  split
  · exact only_pure _
  · exact only_andThen only_fileMut fun _ => only_andThen (only_onFile _) fun _ => only_onFile _

theorem only_fileSize (path : Path) : (AofEngine.fileSize path : ServerM n _).Only ServerAct.OnFiles := by
  refine only_bind (only_onFile _) ?_
  rintro (error | len)
  · dsimp only
    split_ifs <;> exact only_pure _
  · exact only_pure _

theorem only_removeFileIfExists (path : Path) :
    (removeFileIfExists path : ServerM n _).Only ServerAct.OnFiles := by
  refine only_bind (only_onFile _) ?_
  rintro (error | _)
  · dsimp only
    split_ifs <;> exact only_pure _
  · exact only_pure _

theorem only_writeEntries (file : File) (entries : List DbSnapshotEntry) :
    (writeEntries file entries : ServerM n _).Only ServerAct.OnFiles := by
  induction entries with
  | nil => exact only_pure _
  | cons entry entries ih =>
    exact only_bind only_now fun _ => only_andThen (only_onFile _) fun _ => ih

theorem only_replaceAofFile (path tempPath backupPath : Path) :
    (replaceAofFile path tempPath backupPath : ServerM n _).Only ServerAct.OnFiles := by
  have hrename : (renameFileIfExists path backupPath : ServerM n _).Only ServerAct.OnFiles := by
    refine only_bind (only_onFile _) ?_
    rintro (error | _)
    · dsimp only
      split_ifs <;> exact only_pure _
    · exact only_pure _
  refine only_andThen (only_removeFileIfExists _) fun _ => only_andThen hrename fun backedUp => ?_
  refine only_bind (only_onFile _) ?_
  rintro (error | _) <;> cases backedUp
  · exact only_pure _
  · exact only_bind (only_onFile _) fun _ => only_pure _
  · exact only_pure _
  · exact only_removeFileIfExists _

theorem only_rewrite (path : Path) (snapshot : DbSnapshot) :
    (AofEngine.rewrite path snapshot : ServerM n _).Only ServerAct.OnFiles := by
  have hset (file : Option File) : (setEngineFile file : ServerM n _).Only ServerAct.OnFiles :=
    only_perform trivial
  have hwrite (path : Path) : (writeRewriteFile path snapshot : ServerM n _).Only ServerAct.OnFiles :=
    only_andThen (only_onFile _) fun file => only_andThen (only_writeEntries file _) fun _ =>
      only_andThen (only_onFile _) fun _ => only_onFile _
  refine only_andThen (only_removeFileIfExists _) fun _ => only_andThen (hwrite _) fun _ => ?_
  refine only_andThen only_flush fun _ => only_bind (hset _) fun _ => ?_
  refine only_bind (only_replaceAofFile _ _ _) fun replaced => only_bind (only_onFile _) fun reopened => ?_
  rcases replaced with error | _ <;> rcases reopened with error' | file
  · exact only_pure _
  · exact only_bind (hset _) fun _ => only_pure _
  · exact only_pure _
  · exact only_bind (hset _) fun _ => only_pure _

end Files

section Rounds
variable {settings : Settings} {round : Round} {held : List (ServerLock n × LockMode)}

theorem allows_acquire {lock : AofLock} {mode : LockMode}
    (h : ∀ guard ∈ held, guard.1.rank < (ServerLock.aof lock : ServerLock n).rank) :
    (lockOrder settings round).allows held (.acquire lock mode) := by
  refine ⟨fun lock' mode' hl => ?_, by rintro ⟨_, ⟨⟩⟩⟩
  cases hl
  exact h

theorem allows_release {lock : AofLock} {mode : LockMode} :
    (lockOrder settings round).allows held (.release lock mode) :=
  ⟨nofun, by rintro ⟨_, ⟨⟩⟩⟩

theorem allows_writeValue {value : RespValue} (h : ReplyGuards settings round held) :
    (lockOrder settings round).allows held (.writeValue value) := ⟨nofun, fun _ => h⟩

/-- The reply of a client that has not logged a write. -/
theorem follows_writeValue {value : RespValue} (hlogs : ¬ round.LogsWrite settings) :
    (ServerM.writeValue value : ServerM n _).Follows (lockOrder settings round)
      (fun held _ => held = []) [] :=
  follows_act (allows_writeValue (.inl ⟨hlogs, rfl⟩)) fun _ => rfl

theorem follows_handleWrite (hlogs : round.LogsWrite settings) (cmd : Command) :
    (handleWrite (n := n) settings.hash settings.toJson cmd).Follows (lockOrder settings round)
      (fun held _ => held = []) [] := by
  have hguards : OuterGuards (n := n) writeGuards := by simp [OuterGuards, writeGuards]
  -- under both guards the reply is written, then they are dropped
  have hreply (value : RespValue) : (do
      let written ← writeValue value
      release .engine .write
      release .rewriteBarrier .read
      return written : ServerM n _).Follows (lockOrder settings round) (fun held _ => held = [])
        writeGuards := by
    refine follows_perform_bind (allows_writeValue (.inr ⟨hlogs, rfl⟩)) fun _ => ?_
    refine follows_perform_bind allows_release fun _ => follows_perform_bind allows_release fun _ => ?_
    exact follows_pure rfl
  refine follows_perform_bind (allows_acquire (by simp)) fun _ => ?_
  refine follows_perform_bind (allows_acquire (by simp [ServerAct.use, LockUse.after, lockOrder,
    ServerLock.rank])) fun _ => ?_
  refine follows_bind (follows_of_quiet ((only_append cmd).mono fun _ => ServerAct.OnFiles.quiet)) ?_
  rintro _ (error | _) rfl
  · exact hreply _
  · refine follows_bind (follows_onKv (follows_executeCommand cmd) hguards) ?_
    rintro _ response rfl
    exact hreply response

theorem follows_plain (hlogs : ¬ round.LogsWrite settings) (cmd : Command) : (do
    let response ← onKv (executeCommand settings.hash settings.toJson cmd)
    writeValue response : ServerM n _).Follows (lockOrder settings round) (fun held _ => held = [])
      [] := by
  refine follows_bind (follows_onKv (follows_executeCommand cmd) (by simp [OuterGuards])) ?_
  rintro _ response rfl
  exact follows_writeValue hlogs

theorem follows_handleFrame (q : Request) :
    (handleFrame (n := n) settings.hash settings.toJson settings.aofPath.isSome q.frame).Follows
      (lockOrder settings (.client q)) (fun held _ => held = []) [] := by
  unfold handleFrame
  split
  · exact follows_act (allows_of_quiet ⟨rfl, nofun⟩) nofun
  · rename_i error herror
    refine follows_writeValue ?_
    rintro ⟨q, cmd, ⟨⟩, hcmd, -⟩
    rw [herror] at hcmd
    cases hcmd
  · rename_i cmd hcmd
    unfold handleCommand
    split_ifs with hwrite <;> rw [Bool.and_eq_true] at hwrite
    · exact follows_handleWrite ⟨q, cmd, rfl, hcmd, hwrite.1, hwrite.2⟩ cmd
    · refine follows_plain ?_ cmd
      rintro ⟨q, cmd', ⟨⟩, hcmd', hlogged⟩
      rw [hcmd] at hcmd'
      cases hcmd'
      exact hwrite hlogged

theorem follows_maybeRewriteAof (path : Path) (rewriteMinSize : ℕ) :
    (maybeRewriteAof (n := n) path rewriteMinSize).Follows (lockOrder settings round)
      (fun held _ => held = []) [] := by
  refine follows_perform_bind (allows_acquire (by simp)) fun _ => ?_
  refine follows_bind (follows_of_quiet ((only_fileSize path).mono fun _ => ServerAct.OnFiles.quiet)) ?_
  rintro _ size rfl
  refine follows_perform_bind allows_release fun _ => ?_
  rcases size with error | currentSize
  · exact follows_pure rfl
  dsimp only
  split_ifs
  · exact follows_pure rfl
  refine follows_perform_bind (allows_acquire (by simp [lockOrder, ServerAct.use, LockUse.after]))
    fun _ => ?_
  refine follows_bind (follows_onKv (follows_kvOnDb (@follows_snapshotEntries _ settings.hash)
    fun st _ h => by rw [h]) ?_) ?_
  · simp [OuterGuards, lockOrder, ServerAct.use, LockUse.after]
  rintro _ snapshot rfl
  refine follows_perform_bind (allows_acquire (by simp [lockOrder, ServerAct.use, LockUse.after,
    ServerLock.rank])) fun _ => ?_
  refine follows_bind (follows_of_quiet ((only_rewrite path snapshot).mono fun _ => ServerAct.OnFiles.quiet)) ?_
  rintro _ result rfl
  refine follows_perform_bind allows_release fun _ => follows_perform_bind allows_release fun _ => ?_
  exact follows_pure rfl

theorem follows_ttlTick : (ttlTick : ServerM n Unit).Follows (lockOrder settings round)
    (fun held _ => held = []) [] := by
  have hnil : OuterGuards ([] : List (ServerLock n × LockMode)) := by simp [OuterGuards]
  refine follows_bind (follows_onKv (follows_kvOnDb (@follows_removeExpired _ settings.hash)
    fun st _ h => by rw [h]) hnil) ?_
  rintro _ ⟨removed, keyCount⟩ rfl
  refine follows_bind (follows_onKv (follows_stats (only_perform trivial)) hnil) ?_
  rintro _ _ rfl
  exact follows_onKv (follows_stats (only_perform trivial)) hnil

/-- Every round takes the locks in their order. -/
theorem Round.follows_prog : (round.prog (n := n) settings).Follows (lockOrder settings round)
    (fun held _ => held = []) [] := by
  cases round with
  | client q => exact follows_handleFrame q
  | rewrite =>
    unfold Round.prog
    dsimp only
    split
    · exact follows_maybeRewriteAof _ _
    · exact follows_pure rfl
  | ttl =>
    refine follows_bind follows_ttlTick ?_
    rintro _ _ rfl
    exact follows_pure rfl

theorem disciplined_serverSystem {ι : Type} [DecidableEq ι] {roles : ι → Role}
    {stalls : ServerStatus n → Prop} : Disciplined (serverSystem settings roles stalls)
      (lockOrder settings) (fun _ held _ => held = []) [] id where
  start := rfl
  follows _ _ _ := Round.follows_prog
  guards_next _ _ _ _ _ := rfl

end Rounds

end Discipline

end RustKV

import RustKV.LibProtocols
import RustKV.ShardedRuns

/-! The two-level locking of the store, as a protocol that all its operations follow. An
operation takes the global lock, for reading if it works key by key and for writing if it walks
over all shards; within it, it takes one shard lock at a time, and touches a shard only under
its lock. After a section that may change the size of the shard comes the update of the key
counter. -/
namespace RustKV
open Decimal Prog

/-- How far an operation has got. In the stage `changed` its update of the counter is due. -/
inductive Stage (n : ℕ) where
  | outside
  | within (global : LockMode)
  | locked (global : LockMode) (i : Fin (n + 1)) (mode : LockMode)
  | changed (global : LockMode) (i : Fin (n + 1)) (before after : ℕ)
  | left

/-- The guards that an operation holds. -/
def Stage.guards {n : ℕ} : Stage n → List (DbLock n × LockMode)
  | .outside | .left => []
  | .within global => [(.global, global)]
  | .locked global i mode => [(.shard i, mode), (.global, global)]
  | .changed global i _ _ => [(.shard i, .write), (.global, global)]

/-- The operations do some sections on single keys, or walk over all shards, or walk to clear
them. -/
inductive Kind where
  | keyed (sections : List (String × KeyOp))
  | walking
  | flushing

def Kind.mode : Kind → LockMode
  | .keyed _ => .read
  | .walking | .flushing => .write

def KeyOp.wrap : (op : KeyOp) → op.Result → DbReply
  | .set .., result => .unit result
  | .setAtMs .., result => .unit result
  | .get, result => .value result
  | .del, result => .count result
  | .exists', result => .flag result
  | .expire _, result => .flag result
  | .expireAtMs _, result => .flag result
  | .ttl, result => .seconds result

/-- A section on one key that has been run, and what it replied. -/
structure KeyStep where
  key : String
  op : KeyOp
  reply : DbReply

def KeyStep.work (step : KeyStep) : String × KeyOp := (step.key, step.op)

/-- The stage, and the sections on single keys that have been run. -/
structure Progress (n : ℕ) where
  stage : Stage n
  steps : List KeyStep

section Protocol
variable {n : ℕ} (hash : String → UInt64)

/-- The sections that an operation may run on a shard that it has locked, after `done` others. -/
def Kind.Runs : Kind → ℕ → Fin (n + 1) → LockMode → ShardCall → Prop
  | .keyed sections, done, i, mode, .key key op =>
    sections[done]? = some (key, op) ∧ ShardedDatabase.shardForKey hash key = i ∧ mode = .write
  | .walking, _, _, _, .keys => True
  | .walking, _, _, mode, .infoSnapshot | .walking, _, _, mode, .removeExpired
  | .walking, _, _, mode, .snapshotEntries _ | .flushing, _, _, mode, .flushdb => mode = .write
  | _, _, _, _, _ => False

/-- The actions that may come next. -/
inductive Progress.Allows (kind : Kind) : Progress n → DbAct n → Prop
  | enter {steps : List KeyStep} : Allows kind ⟨.outside, steps⟩ (.acquire .global kind.mode)
  | lock {mode : LockMode} {i : Fin (n + 1)} {steps : List KeyStep} :
      Allows kind ⟨.within kind.mode, steps⟩ (.acquire (.shard i) mode)
  | now {steps : List KeyStep} : kind = .walking →
      Allows kind ⟨.within kind.mode, steps⟩ .now
  | loadLen {steps : List KeyStep} : Allows kind ⟨.within kind.mode, steps⟩ .loadLen
  | storeLen {steps : List KeyStep} : kind = .flushing →
      Allows kind ⟨.within kind.mode, steps⟩ (.storeLen 0)
  | leave {steps : List KeyStep} :
      Allows kind ⟨.within kind.mode, steps⟩ (.release .global kind.mode)
  | run {mode : LockMode} {i : Fin (n + 1)} {call : ShardCall} {steps : List KeyStep} :
      kind.Runs hash steps.length i mode call →
      Allows kind ⟨.locked kind.mode i mode, steps⟩ (.shard i call)
  | loadLenLocked {mode : LockMode} {i : Fin (n + 1)} {steps : List KeyStep} :
      Allows kind ⟨.locked kind.mode i mode, steps⟩ .loadLen
  | unlock {mode : LockMode} {i : Fin (n + 1)} {steps : List KeyStep} :
      Allows kind ⟨.locked kind.mode i mode, steps⟩ (.release (.shard i) mode)
  | count {i : Fin (n + 1)} {before after : ℕ} {steps : List KeyStep} : kind ≠ .flushing →
      Allows kind ⟨.changed kind.mode i before after, steps⟩ (.applyLenChange before after)

def Progress.next (s : Progress n) (a : DbAct n) (answer : a.Answer) : Progress n :=
  match s.stage, a, answer with
  | .outside, .acquire .global global, _ => { s with stage := .within global }
  | .within global, .acquire (.shard i) mode, _ => { s with stage := .locked global i mode }
  | .within _, .release .., _ => { s with stage := .left }
  | .locked global i _, .shard _ (.key key op), locked =>
    ⟨.changed global i locked.before locked.after, s.steps ++ [⟨key, op, op.wrap locked.result⟩]⟩
  | .locked _ _ _, .shard _ .keys, _ | .locked _ _ _, .shard _ .flushdb, _ => s
  | .locked global i _, .shard _ _, locked =>
    { s with stage := .changed global i locked.before locked.after }
  | .locked global _ _, .release .., _ => { s with stage := .within global }
  | .changed global i _ _, .applyLenChange .., _ => { s with stage := .locked global i .write }
  | _, _, _ => s

def stages (kind : Kind) : Protocol (DbAct n) DbAct.Answer (Progress n) where
  allows s a := s.Allows hash kind a
  next s a answer := s.next a answer

end Protocol

/-- The keys that one deletion removed. -/
def DbReply.removed : DbReply → ℕ
  | .count (.ok k) => k
  | _ => 0

namespace DbOp

/-- The sections on single keys that an operation runs. -/
def sections : DbOp → List (String × KeyOp)
  | .del ks => ks.map fun key => (key, .del)
  | op => op.keyOp.toList

def kind : DbOp → Kind
  | .keys => .walking
  | .flushdb => .flushing
  | op => .keyed op.sections

/-- How the reply of an operation comes from those of its sections. The branch of `del` for a
section that fails is never taken. -/
def Combines (op : DbOp) (steps : List KeyStep) (reply : DbReply) : Prop :=
  match op with
  | .del _ =>
    (∀ step ∈ steps, ∃ count, step.reply = .count (.ok count)) →
      steps.map KeyStep.work = op.sections ∧
        reply = .count (.ok (steps.map fun step => step.reply.removed).sum)
  | .keys | .flushdb => steps = []
  | _ => steps.map KeyStep.work = op.sections ∧ steps.map KeyStep.reply = [reply]

end DbOp

section Operations
variable {n : ℕ} {hash : String → UInt64}
open ShardedDatabase DbM

/-- A keyed operation that has left with these sections behind it. -/
theorem follows_onShard (key : String) (op : KeyOp) :
    Follows (stages hash (.keyed [(key, op)]))
      (fun s outcome => s = ⟨.left, [⟨key, op, op.wrap outcome.result⟩]⟩)
      ⟨.outside, []⟩ (onShard (n := n) hash key op) := by
  refine follows_perform_bind .enter fun _ => follows_perform_bind .lock fun _ => ?_
  refine follows_perform_bind (.run ⟨rfl, rfl, rfl⟩) fun locked => ?_
  refine follows_perform_bind (.count nofun) fun _ => follows_perform_bind .loadLenLocked fun _ => ?_
  refine follows_perform_bind .unlock fun _ => follows_perform_bind .leave fun _ => ?_
  exact follows_pure rfl

/-- What the loop of `del` leaves, if it began behind `steps` with `removed` keys counted. -/
def Totals (sections : List (String × KeyOp)) (steps : List KeyStep) (removed : ℕ)
    (s : Progress n) (outcome : DbOutcome (KvResult ℕ)) : Prop :=
  s.stage = .within .read ∧ ((∀ step ∈ s.steps, ∃ count, step.reply = .count (.ok count)) →
    s.steps.map KeyStep.work = sections ∧ ∃ rest, s.steps = steps ++ rest ∧
      outcome.result = .ok (removed + (rest.map fun step => step.reply.removed).sum))

theorem follows_delLoop (keys : List String) (removed expired : ℕ) {sections : List (String × KeyOp)}
    {steps : List KeyStep}
    (hs : sections = steps.map KeyStep.work ++ keys.map fun key => (key, .del)) :
    Follows (stages hash (.keyed sections)) (Totals sections steps removed)
      ⟨.within .read, steps⟩ (delLoop (n := n) hash keys removed expired) := by
  induction keys generalizing steps removed expired with
  | nil =>
    have hend (keyCount : ℕ) : Totals (n := n) sections steps removed ⟨.within .read, steps⟩
        ⟨.ok removed, keyCount, expired⟩ :=
      ⟨rfl, fun _ => ⟨by simpa using hs.symm, [], by simp, by simp⟩⟩
    exact follows_perform_bind .loadLen fun keyCount => follows_pure (hend keyCount)
  | cons key keys ih =>
    have hnext : sections[steps.length]? = some (key, .del) := by
      rw [hs, List.getElem?_append_right (by simp)]
      simp
    refine follows_perform_bind .lock fun _ => ?_
    refine follows_perform_bind (.run ⟨hnext, rfl, rfl⟩) fun locked => ?_
    refine follows_perform_bind (.count nofun) fun _ => ?_
    let step (result : KvResult ℕ) : KeyStep := ⟨key, .del, .count result⟩
    obtain ⟨error | count, before, after, purged⟩ := locked
    · refine follows_perform_bind .loadLenLocked fun _ => follows_perform_bind .unlock fun _ => ?_
      refine follows_pure ⟨rfl, fun hall => ?_⟩
      obtain ⟨count, hc⟩ := hall (step (.error error))
        (List.mem_append_right steps (List.mem_singleton.mpr rfl))
      cases hc
    · refine follows_perform_bind .unlock fun _ => ?_
      change Follows (stages hash (.keyed sections)) _
        ⟨.within .read, steps ++ [step (.ok count)]⟩ (delLoop hash keys _ _)
      refine (ih (removed + count) _ ?_).mono ?_
      · rw [hs]
        simp [step, KeyStep.work]
      · rintro s outcome ⟨hstage, h⟩
        refine ⟨hstage, fun hall => ?_⟩
        obtain ⟨hwork, rest, hrest, hresult⟩ := h hall
        refine ⟨hwork, step (.ok count) :: rest, by rw [hrest, List.append_assoc]; rfl, ?_⟩
        rw [hresult, List.map_cons, List.sum_cons, Nat.add_assoc]
        rfl

theorem follows_del (keys : List String) :
    Follows (stages hash (DbOp.del keys).kind)
      (fun s outcome => s.stage = .left ∧
        (DbOp.del keys).Combines s.steps (.count outcome.result))
      ⟨.outside, []⟩ (del (n := n) hash keys) := by
  refine follows_perform_bind .enter fun _ => ?_
  refine follows_bind (follows_delLoop keys 0 0 rfl) ?_
  rintro ⟨stage, steps⟩ outcome ⟨rfl, h⟩
  refine follows_perform_bind .leave fun _ => follows_pure ⟨rfl, fun hall => ?_⟩
  obtain ⟨hwork, rest, hrest, hresult⟩ := h hall
  have hsteps : steps = rest := hrest
  subst hsteps
  rw [hresult, Nat.zero_add]
  exact ⟨hwork, rfl⟩

theorem follows_keysLoop (shards : List (Fin (n + 1))) (keys : List String) :
    Follows (stages hash .walking) (fun s _ => s = ⟨.within .write, []⟩) ⟨.within .write, []⟩
      (keysLoop shards keys) := by
  induction shards generalizing keys with
  | nil => exact follows_pure rfl
  | cons i shards ih =>
    refine follows_perform_bind .lock fun _ => follows_perform_bind (.run trivial) fun locked => ?_
    refine follows_perform_bind .unlock fun _ => ?_
    obtain ⟨error | more, before, after, purged⟩ := locked
    · exact follows_pure rfl
    · exact ih _

theorem follows_keys : Follows (stages hash .walking) (fun s _ => s = ⟨.left, []⟩) ⟨.outside, []⟩
    (keys : DbM n _) := by
  refine follows_perform_bind .enter fun _ => follows_bind (follows_keysLoop _ _) ?_
  rintro s result rfl
  exact follows_perform_bind .leave fun _ => follows_pure rfl

theorem follows_flushLoop (shards : List (Fin (n + 1))) :
    Follows (stages hash .flushing) (fun s _ => s = ⟨.within .write, []⟩) ⟨.within .write, []⟩
      (flushLoop shards) := by
  induction shards with
  | nil => exact follows_perform_bind (.storeLen rfl) fun _ => follows_pure rfl
  | cons i shards ih =>
    refine follows_perform_bind .lock fun _ => follows_perform_bind (.run rfl) fun locked => ?_
    obtain ⟨error | _, before, after, purged⟩ := locked
    · exact follows_perform_bind .loadLenLocked fun _ => follows_perform_bind .unlock fun _ =>
        follows_pure rfl
    · exact follows_perform_bind .unlock fun _ => ih

theorem follows_flushdb : Follows (stages hash .flushing) (fun s _ => s = ⟨.left, []⟩)
    ⟨.outside, []⟩ (flushdb (n := n)) := by
  refine follows_perform_bind .enter fun _ => follows_bind (follows_flushLoop _) ?_
  rintro s outcome rfl
  exact follows_perform_bind .leave fun _ => follows_pure rfl

/-- The loops that purge. -/
theorem follows_onEachShard {α : Type} {call : ShardCall}
    (hcall : call = .infoSnapshot ∨ call = .removeExpired ∨ ∃ now, call = .snapshotEntries now)
    (init : α) (collect : α → Locked call.Result → α) :
    Follows (stages hash .walking) (fun s _ => s = ⟨.within .write, []⟩) ⟨.within .write, []⟩
      (onEachShard (n := n) call init collect) := by
  have hbody (i : Fin (n + 1)) (acc : α) : Follows (stages hash .walking)
      (fun s _ => s = ⟨.within .write, []⟩) ⟨.within .write, []⟩ (do
        acquire (.shard i) .write
        let locked ← DbM.shard i call
        applyLenChange locked.before locked.after
        release (.shard i) .write
        return collect acc locked : DbM n α) := by
    rcases hcall with rfl | rfl | ⟨now, rfl⟩
    all_goals
      refine follows_perform_bind .lock fun _ => follows_perform_bind (.run rfl) fun locked => ?_
      refine follows_perform_bind (.count nofun) fun _ => follows_perform_bind .unlock fun _ => ?_
      exact follows_pure rfl
  refine follows_forEach (fun s acc i _ hs => ?_) rfl
  subst hs
  exact hbody i acc

theorem follows_infoSnapshot : Follows (stages hash .walking) (fun s _ => s = ⟨.left, []⟩)
    ⟨.outside, []⟩ (infoSnapshot (n := n)) := by
  refine follows_perform_bind .enter fun _ => ?_
  refine follows_bind (follows_onEachShard (.inl rfl) _ _) ?_
  rintro s acc rfl
  exact follows_perform_bind .loadLen fun _ => follows_perform_bind .leave fun _ => follows_pure rfl

theorem follows_removeExpired : Follows (stages hash .walking) (fun s _ => s = ⟨.left, []⟩)
    ⟨.outside, []⟩ (removeExpired (n := n)) := by
  refine follows_perform_bind .enter fun _ => ?_
  refine follows_bind (follows_onEachShard (.inr (.inl rfl)) _ _) ?_
  rintro s acc rfl
  exact follows_perform_bind .loadLen fun _ => follows_perform_bind .leave fun _ => follows_pure rfl

theorem follows_snapshotEntries : Follows (stages hash .walking) (fun s _ => s = ⟨.left, []⟩)
    ⟨.outside, []⟩ (snapshotEntries (n := n)) := by
  refine follows_perform_bind .enter fun _ => follows_perform_bind (.now rfl) fun now => ?_
  refine follows_bind (follows_onEachShard (.inr (.inr ⟨now, rfl⟩)) _ _) ?_
  rintro s acc rfl
  exact follows_perform_bind .loadLen fun _ => follows_perform_bind .leave fun _ => follows_pure rfl

end Operations

/-- What a call returns, with all its data. -/
inductive CallReply where
  | reply (reply : DbReply)
  | removed (expiredCount keyCount : ℕ)
  | info (info : DbInfoSnapshot)
  | snapshot (snapshot : DbSnapshot)

namespace DbCall

def kind : DbCall → Kind
  | .op o => o.kind
  | .purge _ => .walking

/-- A call as a task runs it. -/
def task {n : ℕ} (hash : String → UInt64) : DbCall → DbM n CallReply
  | .op o => do
    let reply ← o.prog hash
    return .reply reply
  | .purge .removeExpired => do
    let (expiredCount, keyCount) ← ShardedDatabase.removeExpired
    return .removed expiredCount keyCount
  | .purge .infoSnapshot => do
    let info ← ShardedDatabase.infoSnapshot
    return .info info
  | .purge .snapshotEntries => do
    let snapshot ← ShardedDatabase.snapshotEntries
    return .snapshot snapshot

/-- What a call has behind it when it returns. -/
def Ends {n : ℕ} (call : DbCall) (s : Progress n) (result : CallReply) : Prop :=
  s.stage = .left ∧
    match call, result with
    | .op o, .reply reply => o.Combines s.steps reply
    | .op _, _ => False
    | .purge _, _ => s.steps = []

theorem follows_task {n : ℕ} {hash : String → UInt64} (call : DbCall) :
    Follows (stages hash call.kind) call.Ends ⟨.outside, []⟩ (call.task (n := n) hash) := by
  have hkey (o : DbOp) (key : String) (op : KeyOp) (wrap : op.Result → DbReply)
      (ho : ∀ result, o.Combines [⟨key, op, op.wrap result⟩] (wrap result)) :
      Follows (stages hash (.keyed [(key, op)])) (DbCall.op o).Ends ⟨.outside, []⟩ (do
        let reply ← resultOf wrap (ShardedDatabase.onShard (n := n) hash key op)
        return .reply reply) := by
    refine follows_bind ?_
      fun _ _ h => follows_pure h
    refine follows_bind (follows_onShard key op) ?_
    rintro s outcome rfl
    exact follows_pure ⟨rfl, ho _⟩
  cases call with
  | op o =>
    cases o with
    | set key value duration =>
      exact hkey (.set key value duration) key (.set value duration) .unit fun _ => ⟨rfl, rfl⟩
    | setAtMs key value ts =>
      exact hkey (.setAtMs key value ts) key (.setAtMs value ts) .unit fun _ => ⟨rfl, rfl⟩
    | get key => exact hkey (.get key) key .get .value fun _ => ⟨rfl, rfl⟩
    | exists' key => exact hkey (.exists' key) key .exists' .flag fun _ => ⟨rfl, rfl⟩
    | expire key secs => exact hkey (.expire key secs) key (.expire secs) .flag fun _ => ⟨rfl, rfl⟩
    | expireAtMs key ts =>
      exact hkey (.expireAtMs key ts) key (.expireAtMs ts) .flag fun _ => ⟨rfl, rfl⟩
    | ttl key => exact hkey (.ttl key) key .ttl .seconds fun _ => ⟨rfl, rfl⟩
    | del keys =>
      refine follows_bind ?_
        fun _ _ h => follows_pure h
      exact follows_bind (follows_del keys) fun s outcome h => follows_pure h
    | keys =>
      have hreply : Follows (stages hash .walking) (fun s _ => s = ⟨.left, []⟩) ⟨.outside, []⟩
          (DbOp.prog (n := n) hash .keys) := follows_bind follows_keys fun s _ h => follows_pure h
      refine follows_bind hreply ?_
      rintro s reply rfl
      exact follows_pure ⟨rfl, rfl⟩
    | flushdb =>
      have hreply : Follows (stages hash .flushing) (fun s _ => s = ⟨.left, []⟩) ⟨.outside, []⟩
          (DbOp.prog (n := n) hash .flushdb) := follows_bind follows_flushdb fun s _ h => follows_pure h
      refine follows_bind hreply ?_
      rintro s reply rfl
      exact follows_pure ⟨rfl, rfl⟩
  | purge purger =>
    cases purger with
    | removeExpired =>
      refine follows_bind follows_removeExpired ?_
      rintro s _ rfl
      exact follows_pure ⟨rfl, rfl⟩
    | infoSnapshot =>
      refine follows_bind follows_infoSnapshot ?_
      rintro s _ rfl
      exact follows_pure ⟨rfl, rfl⟩
    | snapshotEntries =>
      refine follows_bind follows_snapshotEntries ?_
      rintro s _ rfl
      exact follows_pure ⟨rfl, rfl⟩

end DbCall

end RustKV

import RustKV.Database
import RustKV.LibPrograms

/-! `ShardedDatabase` of `rustkv-core`. Its operations are programs over the locks,
the shards and the atomic key counter; what happens to one shard under its lock is
one action. `n + 1` is the number of shards, `hash` the hash of a key. -/
namespace RustKV
open Decimal

structure DbOutcome (α : Type) where
  result : α
  keyCount : ℕ
  expiredCount : ℕ

structure DbInfoSnapshot where
  keyCount : ℕ
  memoryEstimateBytes : ℕ
  expiredCount : ℕ

structure DbSnapshotEntry where
  key : String
  value : Bytes
  expireAtMs : Option UInt64
  deriving DecidableEq

structure DbSnapshot where
  entries : List DbSnapshotEntry
  keyCount : ℕ
  expiredCount : ℕ

/-- The operations on a single key. -/
inductive KeyOp where
  | set (value : Bytes) (expire : Option Duration)
  | setAtMs (value : Bytes) (timestampMs : UInt64)
  | get
  | del
  | exists'
  | expire (seconds : UInt64)
  | expireAtMs (timestampMs : UInt64)
  | ttl

def KeyOp.Result : KeyOp → Type
  | .set .. | .setAtMs .. => KvResult Unit
  | .get => KvResult (Option Bytes)
  | .del => KvResult ℕ
  | .exists' | .expire _ | .expireAtMs _ => KvResult Bool
  | .ttl => KvResult Int64

/-- What an operation does to one shard while it holds the lock of the shard. -/
inductive ShardCall where
  | key (key : String) (op : KeyOp)
  | keys
  | flushdb
  | infoSnapshot
  | removeExpired
  | snapshotEntries (now : Clock)

def ShardCall.Result : ShardCall → Type
  | .key _ op => op.Result
  | .keys => KvResult (List String)
  | .flushdb => KvResult Unit
  | .infoSnapshot => ℕ
  | .removeExpired => Unit
  | .snapshotEntries _ => List DbSnapshotEntry

/-- The outcome of one locked section: the result, the size of the shard before and
after, and the number of entries counted as expired. -/
structure Locked (α : Type) where
  result : α
  before : ℕ
  after : ℕ
  expired : ℕ

section Sections
variable {α : Type}

/-- A section that writes after purging the whole shard: `set` and `set_at_ms`. -/
def afterPurge (c : Clock) (db : Database) (body : Database → Option (KvResult α × Database)) :
    Option (Locked (KvResult α)) × Database :=
  match db.removeExpired c with
  | (expired, purged) =>
    match body purged with
    | none => (none, purged)
    | some (result, db') => (some ⟨result, db.len, db'.len, expired⟩, db')

/-- A section around an operation on one key, which counts as expired what got lost. -/
def around (db : Database) (outcome : Option (KvResult α × Database)) :
    Option (Locked (KvResult α)) × Database :=
  match outcome with
  | none => (none, db)
  | some (result, db') => (some ⟨result, db.len, db'.len, db.len - db'.len⟩, db')

end Sections

def KeyOp.run (c : Clock) (db : Database) (key : String) :
    (op : KeyOp) → Option (Locked op.Result) × Database
  | .set value duration => afterPurge c db fun db => db.set c key value duration
  | .setAtMs value timestampMs => afterPurge c db fun db => db.setAtMs c key value timestampMs
  | .get => around db (some (db.get c key))
  | .del => around db (some (db.del c [key]))
  | .exists' => around db (some (db.exists' c key))
  | .expire seconds => around db (db.expire c key seconds)
  | .expireAtMs timestampMs => around db (db.expireAtMs c key timestampMs)
  | .ttl => around db (some (db.ttl c key))

/-- How `snapshot_entries` records an entry. -/
def snapshotEntry (now : Clock) (key : String) (entry : Entry) : DbSnapshotEntry :=
  { key := key
    value := entry.value
    expireAtMs := entry.expireAt.map fun expireAt =>
      let remaining : Duration := (expireAt - now.instant).toNat
      unixMsAfter (currentUnixMs now) remaining }

def snapshotOf (now : Clock) (db : Database) : List DbSnapshotEntry :=
  db.entries.map fun p => snapshotEntry now p.1 p.2

def ShardCall.run (c : Clock) (db : Database) :
    (call : ShardCall) → Option (Locked call.Result) × Database
  | .key k op => op.run c db k
  | .keys => (some ⟨db.keys c, db.len, db.len, 0⟩, db)
  | .flushdb =>
    match db.flushdb with
    | (result, db') => (some ⟨result, db.len, db'.len, 0⟩, db')
  | .infoSnapshot =>
    match db.removeExpired c with
    | (removed, db') => (some ⟨db'.memoryEstimateBytes, db.len, db'.len, removed⟩, db')
  | .removeExpired =>
    match db.removeExpired c with
    | (removed, db') => (some ⟨(), db.len, db'.len, removed⟩, db')
  | .snapshotEntries now =>
    let db' := db.retain fun _ entry => entry.expireAt.all fun t => decide (now.instant < t)
    (some ⟨snapshotOf now db', db.len, db'.len, db.len - db'.len⟩, db')

inductive LockMode where
  | read
  | write
  deriving DecidableEq

inductive DbLock (n : ℕ) where
  | global
  | shard (i : Fin (n + 1))
  deriving DecidableEq

/-- The atomic steps of the database. -/
inductive DbAct (n : ℕ) where
  | acquire (lock : DbLock n) (mode : LockMode)
  | release (lock : DbLock n) (mode : LockMode)
  | now
  | shard (i : Fin (n + 1)) (call : ShardCall)
  | applyLenChange (before after : ℕ)
  | loadLen
  | storeLen (count : ℕ)

def DbAct.Answer {n : ℕ} : DbAct n → Type
  | .acquire .. | .release .. | .applyLenChange .. | .storeLen _ => Unit
  | .now => Clock
  | .shard _ call => Locked call.Result
  | .loadLen => ℕ

abbrev DbM (n : ℕ) := Prog (DbAct n) DbAct.Answer

namespace DbM
variable {n : ℕ}

def acquire (lock : DbLock n) (mode : LockMode) : DbM n Unit :=
  Prog.perform (DbAct.acquire lock mode)
def release (lock : DbLock n) (mode : LockMode) : DbM n Unit :=
  Prog.perform (DbAct.release lock mode)
def now : DbM n Clock := Prog.perform DbAct.now
def shard (i : Fin (n + 1)) (call : ShardCall) : DbM n (Locked call.Result) :=
  Prog.perform (DbAct.shard i call)
def applyLenChange (before after : ℕ) : DbM n Unit :=
  Prog.perform (DbAct.applyLenChange before after)
def loadLen : DbM n ℕ := Prog.perform DbAct.loadLen
def storeLen (count : ℕ) : DbM n Unit := Prog.perform (DbAct.storeLen count)

end DbM

structure ShardedDatabase (n : ℕ) where
  shards : Fin (n + 1) → Database
  keyCount : ℕ

namespace ShardedDatabase
variable {n : ℕ}

def new (n : ℕ) : ShardedDatabase n := ⟨fun _ => Database.new, 0⟩

def lenAfterChange (current before after : ℕ) : ℕ :=
  if after ≥ before then current + (after - before)
  else
    let delta := before - after
    current - delta

variable (hash : String → UInt64)

def shardForKey (key : String) : Fin (n + 1) := Fin.ofNat (n + 1) (hash key).toNat

section Operations
open Prog DbM

/-- The operations on one key: lock its shard, do the work, update the counter. -/
def onShard (key : String) (op : KeyOp) : DbM n (DbOutcome op.Result) := do
  acquire .global .read
  let shard := shardForKey hash key
  acquire (.shard shard) .write
  let locked ← DbM.shard shard (.key key op)
  applyLenChange locked.before locked.after
  let keyCount ← loadLen
  release (.shard shard) .write
  release .global .read
  return ⟨locked.result, keyCount, locked.expired⟩

def set (key : String) (value : Bytes) (expire : Option Duration) :
    DbM n (DbOutcome (KvResult Unit)) := onShard hash key (.set value expire)

def setAtMs (key : String) (value : Bytes) (timestampMs : UInt64) :
    DbM n (DbOutcome (KvResult Unit)) := onShard hash key (.setAtMs value timestampMs)

def get (key : String) : DbM n (DbOutcome (KvResult (Option Bytes))) := onShard hash key .get

def exists' (key : String) : DbM n (DbOutcome (KvResult Bool)) := onShard hash key .exists'

def expire (key : String) (seconds : UInt64) : DbM n (DbOutcome (KvResult Bool)) :=
  onShard hash key (.expire seconds)

def expireAtMs (key : String) (timestampMs : UInt64) : DbM n (DbOutcome (KvResult Bool)) :=
  onShard hash key (.expireAtMs timestampMs)

def ttl (key : String) : DbM n (DbOutcome (KvResult Int64)) := onShard hash key .ttl

/-- The loop of `del`; the lock of a shard is held for one key at a time. -/
def delLoop : List String → ℕ → ℕ → DbM n (DbOutcome (KvResult ℕ))
  | [], removed, expired => do
    let keyCount ← loadLen
    return ⟨.ok removed, keyCount, expired⟩
  | key :: keys, removed, expired => do
    let shard := shardForKey hash key
    acquire (.shard shard) .write
    let locked ← DbM.shard shard (.key key .del)
    applyLenChange locked.before locked.after
    let result : KvResult ℕ := locked.result
    match result with
    | .ok count => do
      release (.shard shard) .write
      delLoop keys (removed + count) (expired + (locked.before - locked.after - count))
    | .error error => do
      let keyCount ← loadLen
      release (.shard shard) .write
      return ⟨.error error, keyCount, expired⟩

def del (keys : List String) : DbM n (DbOutcome (KvResult ℕ)) := do
  acquire .global .read
  let outcome ← delLoop hash keys 0 0
  release .global .read
  return outcome

def keysLoop : List (Fin (n + 1)) → List String → DbM n (KvResult (List String))
  | [], keys => return .ok (keys.insertionSort (· ≤ ·))
  | i :: shards, keys => do
    acquire (.shard i) .read
    let locked ← DbM.shard i .keys
    release (.shard i) .read
    let result : KvResult (List String) := locked.result
    match result with
    | .ok more => keysLoop shards (keys ++ more)
    | .error error => return .error error

def keys : DbM n (KvResult (List String)) := do
  acquire .global .write
  let result ← keysLoop (List.finRange (n + 1)) []
  release .global .write
  return result

def flushLoop : List (Fin (n + 1)) → DbM n (DbOutcome (KvResult Unit))
  | [] => do
    storeLen 0
    return ⟨.ok (), 0, 0⟩
  | i :: shards => do
    acquire (.shard i) .write
    let locked ← DbM.shard i .flushdb
    let result : KvResult Unit := locked.result
    match result with
    | .ok () => do
      release (.shard i) .write
      flushLoop shards
    | .error error => do
      let keyCount ← loadLen
      release (.shard i) .write
      return ⟨.error error, keyCount, 0⟩

def flushdb : DbM n (DbOutcome (KvResult Unit)) := do
  acquire .global .write
  let outcome ← flushLoop (List.finRange (n + 1))
  release .global .write
  return outcome

/-- The loops over all shards that purge them: lock, do the work, update the counter. -/
def onEachShard {α : Type} (call : ShardCall) (init : α)
    (collect : α → Locked call.Result → α) : DbM n α :=
  forEach (List.finRange (n + 1)) init fun acc i => do
    acquire (.shard i) .write
    let locked ← DbM.shard i call
    applyLenChange locked.before locked.after
    release (.shard i) .write
    return collect acc locked

def infoSnapshot : DbM n DbInfoSnapshot := do
  acquire .global .write
  let (expiredCount, memoryEstimateBytes) ← onEachShard .infoSnapshot (0, 0)
    fun (expired, memory) locked =>
      let bytes : ℕ := locked.result
      (expired + locked.expired, memory + bytes)
  let keyCount ← loadLen
  release .global .write
  return ⟨keyCount, memoryEstimateBytes, expiredCount⟩

def removeExpired : DbM n (ℕ × ℕ) := do
  acquire .global .write
  let expiredCount ← onEachShard .removeExpired 0 fun expired locked => expired + locked.expired
  let keyCount ← loadLen
  release .global .write
  return (expiredCount, keyCount)

def snapshotEntries : DbM n DbSnapshot := do
  acquire .global .write
  let now ← DbM.now
  let (entries, expiredCount) ← onEachShard (.snapshotEntries now) ([], 0)
    fun (entries, expired) locked =>
      let more : List DbSnapshotEntry := locked.result
      (entries ++ more, expired + locked.expired)
  let keyCount ← loadLen
  release .global .write
  return ⟨entries.insertionSort (fun left right => left.key ≤ right.key), keyCount, expiredCount⟩

end Operations

section Alone

/-- What a step does when nothing runs beside it: locks are free. -/
def exec (c : Clock) : (a : DbAct n) → ShardedDatabase n → Option a.Answer × ShardedDatabase n
  | .acquire .., db => (some (), db)
  | .release .., db => (some (), db)
  | .now, db => (some c, db)
  | .shard i call, db =>
    match call.run c (db.shards i) with
    | (answer, shard) => (answer, { db with shards := Function.update db.shards i shard })
  | .applyLenChange before after, db =>
    (some (), { db with keyCount := lenAfterChange db.keyCount before after })
  | .loadLen, db => (some db.keyCount, db)
  | .storeLen count, db => (some (), { db with keyCount := count })

/-- Run an operation alone; the clock stands still meanwhile. -/
def runAt {α : Type} (c : Clock) (p : DbM n α) (db : ShardedDatabase n) :
    Option α × ShardedDatabase n := p.run (exec c) db

end Alone

end ShardedDatabase

end RustKV

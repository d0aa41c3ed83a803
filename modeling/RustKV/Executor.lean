import RustKV.Command
import RustKV.Sharded

/-! `execute_command` of `rustkv-core`: a command is run on the database and counted in
the statistics. Each atomic counter operation of `ServerStats` is one action. -/
namespace RustKV
open Decimal

/-- The atomic 64-bit fields of `ServerStats`. -/
inductive StatField where
  | memoryEstimateBytes
  | maxFrameSize
  | totalCommands
  | connectedClients
  | keyCount
  | expiredKeys
  | getCount
  | setCount
  | delCount
  | uptimeSeconds
  deriving DecidableEq

structure ServerStats where
  serverVersion : String
  role : String
  addr : String
  aofEnabled : Bool
  counters : StatField → UInt64
  startedAt : Instant

def ServerStats.new (c : Clock) : ServerStats :=
  { serverVersion := "0.1.0"
    role := "standalone"
    addr := "unknown"
    aofEnabled := false
    counters := fun _ => 0
    startedAt := c.instant }

structure ServerStatsSnapshot where
  serverVersion : String
  role : String
  uptimeSeconds : UInt64
  memoryEstimateBytes : UInt64
  aofEnabled : Bool
  addr : String
  maxFrameSize : UInt64
  totalCommands : UInt64
  connectedClients : UInt64
  keyCount : UInt64
  expiredKeys : UInt64
  getCount : UInt64
  setCount : UInt64
  delCount : UInt64

/-- The atomic steps on the statistics; `fixed` reads the fields that never change. -/
inductive StatAct where
  | fetchAdd (field : StatField) (count : UInt64)
  | store (field : StatField) (value : UInt64)
  | load (field : StatField)
  | loadAofEnabled
  | elapsedSecs
  | fixed

def StatAct.Answer : StatAct → Type
  | .fetchAdd .. | .store .. => Unit
  | .load _ | .elapsedSecs => UInt64
  | .loadAofEnabled => Bool
  | .fixed => String × String × String

/-- The atomic steps of the core: on the database or on the statistics. -/
inductive KvAct (n : ℕ) where
  | db (a : DbAct n)
  | stat (a : StatAct)

def KvAct.Answer {n : ℕ} : KvAct n → Type
  | .db a => a.Answer
  | .stat a => a.Answer

abbrev KvM (n : ℕ) := Prog (KvAct n) KvAct.Answer

namespace KvM
variable {n : ℕ}

def onDb {α : Type} (p : DbM n α) : KvM n α :=
  Prog.lift (S := KvAct.Answer) KvAct.db (fun _ answer => answer) p

def fetchAdd (field : StatField) (count : UInt64) : KvM n Unit :=
  Prog.perform (KvAct.stat (.fetchAdd field count))
def store (field : StatField) (value : UInt64) : KvM n Unit :=
  Prog.perform (KvAct.stat (.store field value))
def load (field : StatField) : KvM n UInt64 := Prog.perform (KvAct.stat (.load field))
def loadAofEnabled : KvM n Bool := Prog.perform (KvAct.stat .loadAofEnabled)
def elapsedSecs : KvM n UInt64 := Prog.perform (KvAct.stat .elapsedSecs)
def fixed : KvM n (String × String × String) := Prog.perform (KvAct.stat .fixed)

end KvM

namespace ServerStats
open KvM
variable {n : ℕ}

def incrTotalCommands : KvM n Unit := fetchAdd .totalCommands 1
def incrGetCount : KvM n Unit := fetchAdd .getCount 1
def incrSetCount : KvM n Unit := fetchAdd .setCount 1
def incrDelCount : KvM n Unit := fetchAdd .delCount 1
def setKeyCount (count : ℕ) : KvM n Unit := store .keyCount (UInt64.ofNat count)
def setMemoryEstimateBytes (bytes : ℕ) : KvM n Unit :=
  store .memoryEstimateBytes (UInt64.ofNat bytes)
def incrExpiredKeysBy (count : ℕ) : KvM n Unit := fetchAdd .expiredKeys (UInt64.ofNat count)

def snapshot : KvM n ServerStatsSnapshot := do
  let stored ← load .uptimeSeconds
  let elapsed ← elapsedSecs
  let uptimeSeconds := max stored elapsed
  store .uptimeSeconds uptimeSeconds
  let (serverVersion, role, addr) ← fixed
  let memoryEstimateBytes ← load .memoryEstimateBytes
  let aofEnabled ← loadAofEnabled
  let maxFrameSize ← load .maxFrameSize
  let totalCommands ← load .totalCommands
  let connectedClients ← load .connectedClients
  let keyCount ← load .keyCount
  let expiredKeys ← load .expiredKeys
  let getCount ← load .getCount
  let setCount ← load .setCount
  let delCount ← load .delCount
  return ⟨serverVersion, role, uptimeSeconds, memoryEstimateBytes, aofEnabled, addr,
    maxFrameSize, totalCommands, connectedClients, keyCount, expiredKeys, getCount, setCount,
    delCount⟩

end ServerStats

section Responses

def errorResponse (error : String) : RespValue := .error error

def bulkResponse (bytes : Bytes) : RespValue := .bulkString bytes

def resultToOkResponse : KvResult Unit → RespValue
  | .ok () => .simpleString "OK"
  | .error error => errorResponse error.toText

def valueResponse : KvResult (Option Bytes) → RespValue
  | .ok (some value) => bulkResponse value
  | .ok none => .null
  | .error error => errorResponse error.toText

def countResponse : KvResult ℕ → RespValue
  | .ok count => .integer (Int64.ofNat count)
  | .error error => errorResponse error.toText

def flagResponse : KvResult Bool → RespValue
  | .ok true => .integer 1
  | .ok false => .integer 0
  | .error error => errorResponse error.toText

def keysResponse : KvResult (List String) → RespValue
  | .ok keys => .array (keys.map fun key => bulkResponse (asBytes key))
  | .error error => errorResponse error.toText

def ttlResponse : KvResult Int64 → RespValue
  | .ok ttl => .integer ttl
  | .error error => errorResponse error.toText

def infoResponse : KvResult String → RespValue
  | .ok json => bulkResponse (asBytes json)
  | .error error => errorResponse error.toText

end Responses

section Execute
open KvM ServerStats
variable {n : ℕ} (hash : String → UInt64) (toJson : ServerStatsSnapshot → KvResult String)

/-- The statistics that follow an operation on the database. -/
def count {α : Type} (outcome : DbOutcome α) : KvM n Unit := do
  setKeyCount outcome.keyCount
  incrExpiredKeysBy outcome.expiredCount

/-- What `execute_command` does for each command. `toJson` is the JSON writer. -/
def runCommand : Command → KvM n RespValue
  | .ping => return .simpleString "PONG"
  | .set key value expire => do
    let outcome ← onDb (ShardedDatabase.set hash key value expire)
    incrSetCount
    count outcome
    return resultToOkResponse outcome.result
  | .setPxAt key value timestampMs => do
    let outcome ← onDb (ShardedDatabase.setAtMs hash key value timestampMs)
    incrSetCount
    count outcome
    return resultToOkResponse outcome.result
  | .get key => do
    let outcome ← onDb (ShardedDatabase.get hash key)
    incrGetCount
    count outcome
    return valueResponse outcome.result
  | .del keys => do
    let outcome ← onDb (ShardedDatabase.del hash keys)
    incrDelCount
    count outcome
    return countResponse outcome.result
  | .exists' key => do
    let outcome ← onDb (ShardedDatabase.exists' hash key)
    count outcome
    return flagResponse outcome.result
  | .keys => do
    let result ← onDb ShardedDatabase.keys
    return keysResponse result
  | .expire key seconds => do
    let outcome ← onDb (ShardedDatabase.expire hash key seconds)
    count outcome
    return flagResponse outcome.result
  | .expireAt key timestampMs => do
    let outcome ← onDb (ShardedDatabase.expireAtMs hash key timestampMs)
    count outcome
    return flagResponse outcome.result
  | .ttl key => do
    let outcome ← onDb (ShardedDatabase.ttl hash key)
    count outcome
    return ttlResponse outcome.result
  | .flushDb => do
    let outcome ← onDb ShardedDatabase.flushdb
    setKeyCount outcome.keyCount
    return resultToOkResponse outcome.result
  | .info => do
    let info ← onDb ShardedDatabase.infoSnapshot
    setKeyCount info.keyCount
    setMemoryEstimateBytes info.memoryEstimateBytes
    incrExpiredKeysBy info.expiredCount
    let stats ← snapshot
    return infoResponse (toJson stats)
  | .unknown command => return errorResponse ("ERR unknown command '" ++ command ++ "'")

def executeCommand (cmd : Command) : KvM n RespValue := do
  if cmd = .info then
    runCommand hash toJson cmd
  else do
    incrTotalCommands
    runCommand hash toJson cmd

end Execute

section Alone

structure Kv (n : ℕ) where
  db : ShardedDatabase n
  stats : ServerStats

def ServerStats.exec (c : Clock) : (a : StatAct) → ServerStats → a.Answer × ServerStats
  | .fetchAdd field count, s =>
    ((), { s with counters := Function.update s.counters field (s.counters field + count) })
  | .store field value, s => ((), { s with counters := Function.update s.counters field value })
  | .load field, s => (s.counters field, s)
  | .loadAofEnabled, s => (s.aofEnabled, s)
  | .elapsedSecs, s => (UInt64.ofNat ((c.instant - s.startedAt).toNat / 10^9), s)
  | .fixed, s => ((s.serverVersion, s.role, s.addr), s)

/-- What a step does when nothing runs beside it. -/
def Kv.exec {n : ℕ} (c : Clock) : (a : KvAct n) → Kv n → Option a.Answer × Kv n
  | .db a, s =>
    match ShardedDatabase.exec c a s.db with
    | (answer, db) => (answer, { s with db := db })
  | .stat a, s =>
    match s.stats.exec c a with
    | (answer, stats) => (some answer, { s with stats := stats })

end Alone

end RustKV

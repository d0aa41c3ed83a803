import RustKV.Aof

/-! The tasks of the server: `handle_client`, one round for each request, the worker that
rewrites the log and the worker that removes expired entries. -/
namespace RustKV
open Decimal ServerM

/-- `parse_command`, with the panics of the parser. -/
def parseCommand (frame : Bytes) : Option (Except String Command) :=
  (parseRespOrPanic frameSize frame).map fun
    | .error error => .error ("ERR protocol error: " ++ error.toText)
    | .ok (resp, _) =>
      match Command.fromResp resp with
      | .error error => .error ("ERR " ++ error.toText)
      | .ok cmd => .ok cmd

def isWriteCommand : Command → Bool
  | .set .. | .setPxAt .. | .del _ | .expire .. | .expireAt .. | .flushDb => true
  | _ => false

section Client
variable {n : ℕ} (hash : String → UInt64) (toJson : ServerStatsSnapshot → KvResult String)
  (aof : Bool)

/-- A write command while the log is on. The guards are dropped at the end in any case. -/
def handleWrite (cmd : Command) : ServerM n (IoResult Unit) := do
  acquire .rewriteBarrier .read
  acquire .engine .write
  match ← AofEngine.append cmd with
  | .error error => do
    let written ← writeValue (errorResponse error.text)
    release .engine .write
    release .rewriteBarrier .read
    return written
  | .ok () => do
    let response ← onKv (executeCommand hash toJson cmd)
    let written ← writeValue response
    release .engine .write
    release .rewriteBarrier .read
    return written

def handleCommand (cmd : Command) : ServerM n (IoResult Unit) :=
  if isWriteCommand cmd && aof then
    handleWrite hash toJson cmd
  else do
    let response ← onKv (executeCommand hash toJson cmd)
    writeValue response

/-- One round of the loop of `handle_client`, for a frame that `read_value` returned. -/
def handleFrame (frame : Bytes) : ServerM n (IoResult Unit) :=
  match parseCommand frame with
  | none => panic
  | some (.error error) => writeValue (errorResponse error)
  | some (.ok cmd) => handleCommand hash toJson aof cmd

end Client

section Workers
variable {n : ℕ}

def maybeRewriteAof (path : Path) (rewriteMinSize : ℕ) : ServerM n (IoResult Unit) := do
  acquire .engine .write
  let size ← AofEngine.fileSize path
  release .engine .write
  match size with
  | .error error => return .error error
  | .ok currentSize =>
    if currentSize < rewriteMinSize then
      return .ok ()
    else do
      acquire .rewriteBarrier .write
      let snapshot ← onDb ShardedDatabase.snapshotEntries
      acquire .engine .write
      let result ← AofEngine.rewrite path snapshot
      release .engine .write
      release .rewriteBarrier .write
      return result

/-- One tick of the TTL worker. -/
def ttlTick : ServerM n Unit := do
  let (removed, keyCount) ← onDb ShardedDatabase.removeExpired
  onKv (ServerStats.incrExpiredKeysBy removed)
  onKv (ServerStats.setKeyCount keyCount)

end Workers

section Alone

/-- A frame that `read_value` returned: the parser has read it without a panic. -/
structure Request where
  frame : Bytes
  resp : RespFrame
  parses : parseRespOrPanic frameSize frame = some (.ok (resp, frame.length))

/-- One request of a client, the time at which it is handled, and what strikes the append. -/
structure Visit where
  clock : Clock
  fault : Option Fault
  request : Request

variable {n : ℕ} (hash : String → UInt64) (toJson : ServerStatsSnapshot → KvResult String)
  (aof : Bool)

/-- The loop of `handle_client` when nothing runs beside it. -/
def serve : List Visit → World n → Option (IoResult Unit) × World n
  | [], w => (some (.ok ()), w)
  | v :: vs, w =>
    match (handleFrame hash toJson aof v.request.frame).run (World.exec v.clock v.fault) w with
    | (none, w') => (none, w')
    | (some (.error error), w') => (some (.error error), w')
    | (some (.ok ()), w') => serve vs w'

/-- A server with an empty database that starts on the files that another one left. -/
def World.restarted {n : ℕ} (files : FileSystem) (stats : ServerStats) : World n :=
  { kv := ⟨ShardedDatabase.new n, stats⟩
    files := files
    engineFile := none
    sent := [] }

/-- The start-up sequence: load the log, then open it for appending. -/
def startUp {n : ℕ} (hash : String → UInt64) (path : Path) : ServerM n (IoResult Unit) :=
  andThen (AofEngine.loadAndReplay hash path) fun _ => AofEngine.new path

end Alone

end RustKV

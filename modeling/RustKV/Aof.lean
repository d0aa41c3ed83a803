import RustKV.Effects
import RustKV.RespSafety

/-! The append-only log of `rustkv-server`: the records of the commands, appending,
loading and replaying at start-up, and rewriting. `path` is the path of the log; the
engine's own state is the file that it holds open. -/
namespace RustKV
open Decimal ServerM

section Records

def encodeArgs (args : List Bytes) : Bytes := encodeResp (.array (args.map .bulkString))

/-- The record of a command at the time `c`, if the command is logged. -/
def commandToRespBytes (c : Clock) : Command → Option Bytes
  | .set key value expire =>
    let args := [asBytes "SET", asBytes key, value]
    match expire with
    | some duration =>
      some (encodeArgs (args ++
        [asBytes "PXAT", asBytes (toString (expireAtMsFromNow c duration).toNat)]))
    | none => some (encodeArgs args)
  | .setPxAt key value timestampMs =>
    some (encodeArgs [asBytes "SET", asBytes key, value, asBytes "PXAT",
      asBytes (toString timestampMs.toNat)])
  | .del keys => some (encodeArgs (asBytes "DEL" :: keys.map asBytes))
  | .expire key seconds =>
    some (encodeArgs [asBytes "EXPIREAT", asBytes key,
      asBytes (toString (expireAtMsFromNow c (Duration.fromSecs seconds)).toNat)])
  | .expireAt key timestampMs =>
    some (encodeArgs [asBytes "EXPIREAT", asBytes key, asBytes (toString timestampMs.toNat)])
  | .flushDb => some (encodeArgs [asBytes "FLUSHDB"])
  | _ => none

/-- The record of a snapshot entry; its command is always logged. -/
def snapshotEntryToRespBytes (c : Clock) (entry : DbSnapshotEntry) : Bytes :=
  match entry.expireAtMs with
  | some timestampMs =>
    (commandToRespBytes c (.setPxAt entry.key entry.value timestampMs)).get rfl
  | none => (commandToRespBytes c (.set entry.key entry.value none)).get rfl

end Records

variable {n : ℕ}

section Files
variable (path : Path)

def openAppendFile : ServerM n (IoResult File) := onFile (.openAppend path)

def removeFileIfExists : ServerM n (IoResult Unit) := do
  match ← onFile (.removeFile path) with
  | .ok () => return .ok ()
  | .error error => if error.kind = .notFound then return .ok () else return .error error

def renameFileIfExists (source target : Path) : ServerM n (IoResult Bool) := do
  match ← onFile (.rename source target) with
  | .ok () => return .ok true
  | .error error => if error.kind = .notFound then return .ok false else return .error error

/-- The loop of `write_rewrite_file` over the entries. -/
def writeEntries (file : File) : List DbSnapshotEntry → ServerM n (IoResult Unit)
  | [] => return .ok ()
  | entry :: entries => do
    let now ← now
    andThen (onFile (.writeAll file (snapshotEntryToRespBytes now entry))) fun _ =>
      writeEntries file entries

def writeRewriteFile (snapshot : DbSnapshot) : ServerM n (IoResult Unit) :=
  andThen (onFile (.openTruncate path)) fun file =>
  andThen (writeEntries file snapshot.entries) fun _ =>
  andThen (onFile (.flush file)) fun _ =>
  onFile (.syncAll file)

def rewriteTempPath : Path := path.withFileName (path.fileName.getD "rustkv.aof" ++ ".rewrite")

def rewriteBackupPath : Path := path.withFileName (path.fileName.getD "rustkv.aof" ++ ".bak")

def replaceAofFile (tempPath backupPath : Path) : ServerM n (IoResult Unit) :=
  andThen (removeFileIfExists backupPath) fun _ =>
  andThen (renameFileIfExists path backupPath) fun originalBackedUp => do
    match ← onFile (.rename tempPath path) with
    | .error error =>
      if originalBackedUp then do
        let _ ← onFile (.rename backupPath path)
        return .error error
      else
        return .error error
    | .ok () =>
      if originalBackedUp then
        removeFileIfExists backupPath
      else
        return .ok ()

end Files

namespace AofEngine

def new (path : Path) : ServerM n (IoResult Unit) :=
  andThen (openAppendFile path) fun file => do
    setEngineFile (some file)
    return .ok ()

def fileMut : ServerM n (IoResult File) := do
  match ← engineFile with
  | some file => return .ok file
  | none => return .error ⟨.other, "AOF file is temporarily closed"⟩

def append (cmd : Command) : ServerM n (IoResult Unit) := do
  let now ← now
  match commandToRespBytes now cmd with
  | none => return .ok ()
  | some bytes =>
    andThen fileMut fun file =>
    andThen (onFile (.writeAll file bytes)) fun _ =>
    onFile (.syncAll file)

def flush : ServerM n (IoResult Unit) :=
  andThen fileMut fun file =>
  andThen (onFile (.flush file)) fun _ =>
  onFile (.syncAll file)

def fileSize (path : Path) : ServerM n (IoResult ℕ) := do
  match ← onFile (.metadataLen path) with
  | .ok len => return .ok len
  | .error error => if error.kind = .notFound then return .ok 0 else return .error error

def rewrite (path : Path) (snapshot : DbSnapshot) : ServerM n (IoResult Unit) :=
  let tempPath := rewriteTempPath path
  let backupPath := rewriteBackupPath path
  andThen (removeFileIfExists tempPath) fun _ =>
  andThen (writeRewriteFile tempPath snapshot) fun _ =>
  andThen flush fun _ => do
    setEngineFile none
    let replaceResult ← replaceAofFile path tempPath backupPath
    let reopenResult ← openAppendFile path
    match replaceResult, reopenResult with
    | .ok (), .ok file => do
      setEngineFile (some file)
      return .ok ()
    | .error error, .ok file => do
      setEngineFile (some file)
      return .error error
    | .ok (), .error error => return .error error
    | .error error, .error _ => return .error error

end AofEngine

section Replay
variable (hash : String → UInt64)

def commandReplayError (error : KvError) : IoError := ⟨.invalidData, error.toText⟩

/-- Run an operation for its effect; an error of the operation is an error of the replay. -/
def replayed {α : Type} (p : DbM n (DbOutcome (KvResult α))) : DbM n (IoResult Unit) := do
  let outcome ← p
  match outcome.result with
  | .ok _ => return .ok ()
  | .error error => return .error (commandReplayError error)

def replayCommand : Command → DbM n (IoResult Unit)
  | .set key value expire => replayed (ShardedDatabase.set hash key value expire)
  | .setPxAt key value timestampMs => replayed (ShardedDatabase.setAtMs hash key value timestampMs)
  | .del keys => replayed (ShardedDatabase.del hash keys)
  | .expire key seconds => replayed (ShardedDatabase.expire hash key seconds)
  | .expireAt key timestampMs => replayed (ShardedDatabase.expireAtMs hash key timestampMs)
  | .flushDb => replayed ShardedDatabase.flushdb
  | _ => return .ok ()

def parseFailure (error : ProtocolError) : IoError :=
  ⟨.invalidData, "failed to parse AOF RESP command: " ++ error.toText⟩

def decodeFailure (error : KvError) : IoError :=
  ⟨.invalidData, "failed to decode AOF command: " ++ error.toText⟩

/-- `size_of::<RespFrame>()` -/
def frameSize : ℕ := 24

/-- The loop of `load_and_replay` on what is left of the file. `fuel` bounds the number of
rounds; each round consumes at least one byte. -/
def replayRest : ℕ → Bytes → ServerM n (IoResult Unit)
  | 0, _ => return .ok ()
  | fuel+1, rest =>
    if rest.isEmpty then return .ok ()
    else match parseRespOrPanic frameSize rest with
      | none => panic
      | some (.error error) => return .error (parseFailure error)
      | some (.ok (resp, consumed)) =>
        match Command.fromResp resp with
        | .error error => return .error (decodeFailure error)
        | .ok cmd => andThen (onDb (replayCommand hash cmd)) fun _ =>
          replayRest fuel (rest.drop consumed)

def AofEngine.loadAndReplay (path : Path) : ServerM n (IoResult Unit) := do
  match ← onFile (.openRead path) with
  | .error error => if error.kind = .notFound then return .ok () else return .error error
  | .ok file =>
    andThen (onFile (.readToEnd file)) fun bytes =>
    replayRest hash bytes.length bytes

end Replay

end RustKV

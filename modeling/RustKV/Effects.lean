import RustKV.Executor

/-! What the server does besides its database: files, the locks around the log,
replies. Each filesystem operation is one atomic step. -/
namespace RustKV
open Decimal

inductive ErrorKind where
  | notFound
  | invalidData
  | unexpectedEof
  | other
  deriving DecidableEq

/-- `std::io::Error`, with its `Display` text. -/
structure IoError where
  kind : ErrorKind
  text : String
  deriving DecidableEq

abbrev IoResult := Except IoError

/-- A path: what comes before the last component, and that component if it is a name. -/
structure Path where
  parent : String
  fileName : Option String
  deriving DecidableEq

def Path.withFileName (path : Path) (name : String) : Path := { path with fileName := some name }

/-- An open file. The program closes a file before it renames it, so that the path by
which it was opened stands for it. -/
structure File where
  path : Path
  deriving DecidableEq

/-- The regular files in the directories that exist. -/
abbrev FileSystem := Path → Option Bytes

inductive FileAct where
  | openRead (path : Path)
  | openAppend (path : Path)
  | openTruncate (path : Path)
  | readToEnd (file : File)
  | writeAll (file : File) (bytes : Bytes)
  | flush (file : File)
  | syncAll (file : File)
  | metadataLen (path : Path)
  | removeFile (path : Path)
  | rename (source target : Path)

def FileAct.Value : FileAct → Type
  | .openRead _ | .openAppend _ | .openTruncate _ => File
  | .readToEnd _ => Bytes
  | .metadataLen _ => ℕ
  | .writeAll .. | .flush _ | .syncAll _ | .removeFile _ | .rename .. => Unit

abbrev FileAct.Answer (a : FileAct) : Type := IoResult a.Value

namespace FileSystem

def notFound : IoError := ⟨.notFound, "No such file or directory (os error 2)"⟩

def put (fs : FileSystem) (path : Path) (bytes : Bytes) : FileSystem :=
  Function.update fs path (some bytes)

def delete (fs : FileSystem) (path : Path) : FileSystem := Function.update fs path none

/-- A filesystem operation that does not fail for reasons of its own. -/
def exec : (a : FileAct) → FileSystem → a.Answer × FileSystem
  | .openRead path, fs =>
    match fs path with
    | none => (.error notFound, fs)
    | some _ => (.ok ⟨path⟩, fs)
  | .openAppend path, fs => (.ok ⟨path⟩, fs.put path ((fs path).getD []))
  | .openTruncate path, fs => (.ok ⟨path⟩, fs.put path [])
  | .readToEnd file, fs => (.ok ((fs file.path).getD []), fs)
  | .writeAll file bytes, fs => (.ok (), fs.put file.path ((fs file.path).getD [] ++ bytes))
  | .flush _, fs => (.ok (), fs)
  | .syncAll _, fs => (.ok (), fs)
  | .metadataLen path, fs =>
    match fs path with
    | none => (.error notFound, fs)
    | some bytes => (.ok bytes.length, fs)
  | .removeFile path, fs =>
    match fs path with
    | none => (.error notFound, fs)
    | some _ => (.ok (), fs.delete path)
  | .rename source target, fs =>
    match fs source with
    | none => (.error notFound, fs)
    | some bytes => (.ok (), (fs.delete source).put target bytes)

end FileSystem

/-- The locks of `AofRuntime`. -/
inductive AofLock where
  | rewriteBarrier
  | engine
  deriving DecidableEq

/-- The atomic steps of the server. `engineFile` and `setEngineFile` access the field
`file` of the engine; a `panic` has no answer. -/
inductive ServerAct (n : ℕ) where
  | kv (a : KvAct n)
  | file (a : FileAct)
  | acquire (lock : AofLock) (mode : LockMode)
  | release (lock : AofLock) (mode : LockMode)
  | engineFile
  | setEngineFile (file : Option File)
  | writeValue (value : RespValue)
  | panic

def ServerAct.Answer {n : ℕ} : ServerAct n → Type
  | .kv a => a.Answer
  | .file a => a.Answer
  | .acquire .. | .release .. | .setEngineFile _ => Unit
  | .engineFile => Option File
  | .writeValue _ => IoResult Unit
  | .panic => Empty

abbrev ServerM (n : ℕ) := Prog (ServerAct n) ServerAct.Answer

namespace ServerM
variable {n : ℕ} {α β : Type}

def onKv (p : KvM n α) : ServerM n α :=
  Prog.lift (S := ServerAct.Answer) ServerAct.kv (fun _ answer => answer) p

def onDb (p : DbM n α) : ServerM n α := onKv (KvM.onDb p)

def now : ServerM n Clock := onDb DbM.now

def onFile (a : FileAct) : ServerM n (IoResult a.Value) := Prog.perform (ServerAct.file a)

def acquire (lock : AofLock) (mode : LockMode) : ServerM n Unit :=
  Prog.perform (ServerAct.acquire lock mode)
def release (lock : AofLock) (mode : LockMode) : ServerM n Unit :=
  Prog.perform (ServerAct.release lock mode)
def engineFile : ServerM n (Option File) := Prog.perform ServerAct.engineFile
def setEngineFile (file : Option File) : ServerM n Unit :=
  Prog.perform (ServerAct.setEngineFile file)
def writeValue (value : RespValue) : ServerM n (IoResult Unit) :=
  Prog.perform (ServerAct.writeValue value)
def panic : ServerM n α := .act ServerAct.panic Empty.elim

/-- The operator `?`: go on with the value, or return the error. -/
def andThen (p : ServerM n (IoResult α)) (f : α → ServerM n (IoResult β)) :
    ServerM n (IoResult β) := do
  match ← p with
  | .error error => return .error error
  | .ok a => f a

end ServerM

/-- What strikes an append: the file takes some of its bytes only, or `write_all` or `sync_all`
returns an error. Any of these can happen without the others. -/
structure Fault where
  written : Option ℕ
  write : Option IoError
  sync : Option IoError
  deriving DecidableEq

/-- The bytes that the file takes. -/
def Fault.taken (fault : Fault) (bytes : Bytes) : Bytes := fault.written.elim bytes bytes.take

/-- The server with one connection: the database, the files, the file that the engine
holds open, and the values that were given to `write_value`. -/
structure World (n : ℕ) where
  kv : Kv n
  files : FileSystem
  engineFile : Option File
  sent : List RespValue

/-- The bytes on the wire: `write_value` encodes each value and writes it. -/
def World.output {n : ℕ} (w : World n) : Bytes := (w.sent.map encodeResp).flatten

/-- A filesystem operation while `fault` strikes the writes and syncs. -/
def FileSystem.execFaulty (fault : Option Fault) :
    (a : FileAct) → FileSystem → a.Answer × FileSystem
  | .writeAll file bytes, fs =>
    match fault with
    | some f =>
      (f.write.elim (.ok ()) .error, fs.put file.path ((fs file.path).getD [] ++ f.taken bytes))
    | none => exec (.writeAll file bytes) fs
  | .syncAll file, fs =>
    match fault with
    | some f => (f.sync.elim (.ok ()) .error, fs)
    | none => exec (.syncAll file) fs
  | a, fs => exec a fs

/-- What a step does when nothing runs beside it. -/
def World.exec {n : ℕ} (c : Clock) (fault : Option Fault) :
    (a : ServerAct n) → World n → Option a.Answer × World n
  | .kv a, w =>
    match Kv.exec c a w.kv with
    | (answer, kv) => (answer, { w with kv := kv })
  | .file a, w =>
    match FileSystem.execFaulty fault a w.files with
    | (answer, files) => (some answer, { w with files := files })
  | .acquire .., w => (some (), w)
  | .release .., w => (some (), w)
  | .engineFile, w => (some w.engineFile, w)
  | .setEngineFile file, w => (some (), { w with engineFile := file })
  | .writeValue value, w => (some (.ok ()), { w with sent := w.sent ++ [value] })
  | .panic, w => (none, w)

end RustKV

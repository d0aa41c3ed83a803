import Mathlib.Data.List.AList
import Mathlib.Data.List.Sort
import Mathlib.Data.String.Basic
import RustKV.LibTimedMap
import RustKV.RespEncoder
import RustKV.Time

/-! One shard of the store: `Database` of `rustkv-core`, a hash map from keys to
entries, each operation as the source has it. The clock `c` is what `Instant::now()`
and `SystemTime::now()` read during the operation. An operation that adds a
duration to an instant may panic: `none`, and the map is as before. -/
namespace RustKV
open Decimal

inductive KvError where
  | protocol (error : ProtocolError)
  | io (text : String)
  | invalidCommand (message : String)
  | storage (message : String)
  | serde (text : String)
  deriving DecidableEq

/-- The `Display` text of an error. -/
def KvError.toText : KvError → String
  | .protocol error => "protocol error: " ++ error.toText
  | .io text => "io error: " ++ text
  | .invalidCommand message => "invalid command: " ++ message
  | .storage message => "storage error: " ++ message
  | .serde text => "serialization error: " ++ text

abbrev KvResult := Except KvError

abbrev Entry := Timed Bytes Instant

namespace Entry

def new (c : Clock) (value : Bytes) (expire : Option Duration) : Option Entry :=
  match expire with
  | none => some ⟨value, none⟩
  | some duration => (Instant.add c.instant duration).map fun t => ⟨value, some t⟩

def withExpireAt (value : Bytes) (expireAt : Option Instant) : Entry := ⟨value, expireAt⟩

def isExpired (c : Clock) (entry : Entry) : Bool :=
  entry.expireAt.any fun t => decide (c.instant ≥ t)

end Entry

/-- `data: HashMap<String, Entry>` -/
abbrev Database := AList fun _ : String => Entry

namespace Database

def new : Database := ∅

def len (db : Database) : ℕ := db.entries.length

/-- `size_of::<String>()` and `size_of::<Entry>()` on a 64-bit target. -/
def stringSize : ℕ := 24
def entrySize : ℕ := 40

def memoryEstimateBytes (db : Database) : ℕ :=
  (db.entries.map fun p => stringSize + (asBytes p.1).length + entrySize + p.2.value.length).sum

/-- `HashMap::retain` -/
def retain (keep : String → Entry → Bool) (db : Database) : Database :=
  ⟨db.entries.filter fun p => keep p.1 p.2, db.nodupKeys.sublist List.filter_sublist⟩

def removeIfExpired (c : Clock) (db : Database) (key : String) : Bool × Database :=
  if (db.lookup key).any (Entry.isExpired c) then (true, db.erase key) else (false, db)

def setAtMs (c : Clock) (db : Database) (key : String) (value : Bytes) (timestampMs : UInt64) :
    Option (KvResult Unit × Database) :=
  match durationUntilUnixMs c timestampMs with
  | none => some (.ok (), db.erase key)
  | some duration =>
    (Instant.add c.instant duration).map fun t =>
      (.ok (), db.insert key (Entry.withExpireAt value (some t)))

def expireAtMs (c : Clock) (db : Database) (key : String) (timestampMs : UInt64) :
    Option (KvResult Bool × Database) :=
  match removeIfExpired c db key with
  | (true, db) => some (.ok false, db)
  | (false, db) =>
    match durationUntilUnixMs c timestampMs with
    | none => some (.ok (db.lookup key).isSome, db.erase key)
    | some duration =>
      match db.lookup key with
      | none => some (.ok false, db)
      | some entry =>
        (Instant.add c.instant duration).map fun t =>
          (.ok true, db.insert key { entry with expireAt := some t })

def set (c : Clock) (db : Database) (key : String) (value : Bytes) (expire : Option Duration) :
    Option (KvResult Unit × Database) :=
  (Entry.new c value expire).map fun entry => (.ok (), db.insert key entry)

def get (c : Clock) (db : Database) (key : String) : KvResult (Option Bytes) × Database :=
  match removeIfExpired c db key with
  | (true, db) => (.ok none, db)
  | (false, db) => (.ok ((db.lookup key).map Timed.value), db)

/-- The loop of `del`, with the number of keys removed so far. -/
def delFrom (c : Clock) : ℕ → Database → List String → ℕ × Database
  | removed, db, [] => (removed, db)
  | removed, db, key :: keys =>
    match removeIfExpired c db key with
    | (true, db) => delFrom c removed db keys
    | (false, db) =>
      if (db.lookup key).isSome then delFrom c (removed + 1) (db.erase key) keys
      else delFrom c removed db keys

def del (c : Clock) (db : Database) (keys : List String) : KvResult ℕ × Database :=
  match delFrom c 0 db keys with
  | (removed, db) => (.ok removed, db)

def exists' (c : Clock) (db : Database) (key : String) : KvResult Bool × Database :=
  match removeIfExpired c db key with
  | (true, db) => (.ok false, db)
  | (false, db) => (.ok (db.lookup key).isSome, db)

def keys (c : Clock) (db : Database) : KvResult (List String) :=
  let keys := db.entries.filterMap fun p => if Entry.isExpired c p.2 then none else some p.1
  .ok (keys.insertionSort (· ≤ ·))

def expire (c : Clock) (db : Database) (key : String) (secs : UInt64) :
    Option (KvResult Bool × Database) :=
  match removeIfExpired c db key with
  | (true, db) => some (.ok false, db)
  | (false, db) =>
    match db.lookup key with
    | none => some (.ok false, db)
    | some entry =>
      (Instant.add c.instant (Duration.fromSecs secs)).map fun t =>
        (.ok true, db.insert key { entry with expireAt := some t })

/-- Whole seconds, rounded up: `as_secs() + u64::from(subsec_nanos() > 0)`. -/
def ttlSecs (remaining : Duration) : UInt64 :=
  UInt64.ofNat (remaining / 10^9) + (if remaining % 10^9 > 0 then 1 else 0)

def ttl (c : Clock) (db : Database) (key : String) : KvResult Int64 × Database :=
  match removeIfExpired c db key with
  | (true, db) => (.ok (-2), db)
  | (false, db) =>
    match db.lookup key with
    | none => (.ok (-2), db)
    | some entry =>
      match entry.expireAt with
      | none => (.ok (-1), db)
      | some expireAt =>
        if c.instant ≥ expireAt then
          (.ok (-2), db.erase key)
        else
          let remaining : Duration := (expireAt - c.instant).toNat
          (.ok (ttlSecs remaining).toInt64, db)

def flushdb (_db : Database) : KvResult Unit × Database := (.ok (), ∅)

def removeExpired (c : Clock) (db : Database) : ℕ × Database :=
  let before := db.len
  let db := db.retain fun _ entry => !Entry.isExpired c entry
  (before - db.len, db)

end Database

end RustKV

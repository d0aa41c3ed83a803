import RustKV.ServerSpec

/-! What the file of the log holds after a sequence of requests, and what a restart makes of
it: a torn record at its end is refused, and what a failed append left behind stays. -/
namespace RustKV
open Decimal TimedMap

section Restarts
variable {n : ℕ} {hash : String → UInt64} {path : Path} {c : Clock} {files : FileSystem}
open World

/-- What `load_and_replay` returns at the time `c` on these files, and the database that it
leaves. -/
def load (n : ℕ) (hash : String → UInt64) (path : Path) (c : Clock) (files : FileSystem) :
    Option (IoResult Unit) × ShardedDatabase n :=
  match (AofEngine.loadAndReplay hash path).run (World.exec c none)
    (World.restarted files (ServerStats.new c)) with
  | (result, w) => (result, w.kv.db)

theorem simulates_new : Simulates c hash (ShardedDatabase.new n) clear :=
  ⟨fun _ key h => absurd (AList.lookup_empty key) h, rfl⟩

theorem load_records {log : List Record} (hfile : files path = some (logBytes log))
    (hsize : Loadable (logBytes log)) : load n hash path c files =
      ShardedDatabase.runAt c (replayAll hash log) (ShardedDatabase.new n) := by
  rw [load, loadAndReplay_log hfile hsize, run_onDb]
  rfl

/-- A file of records is loaded if their deadlines fit. -/
theorem load_log {log : List Record} (hfile : files path = some (logBytes log))
    (hsize : Loadable (logBytes log)) (hfits : ReplayFits c clear log) :
    ∃ db, load n hash path c files = (some (.ok ()), db) ∧
      Simulates c hash db (replay c clear log) := by
  obtain ⟨db, hs, hrun⟩ := replayAll_spec log (simulates_new (c := c)) hfits
  exact ⟨db, (load_records hfile hsize).trans hrun, hs⟩

theorem load_log_panics {log : List Record} (hfile : files path = some (logBytes log))
    (hsize : Loadable (logBytes log)) (hfits : ¬ ReplayFits c clear log) :
    (load n hash path c files).1 = none := by
  obtain ⟨db, hrun⟩ := replayAll_panics log (simulates_new (c := c) (n := n)) hfits
  rw [load_records hfile hsize, hrun]

/-- The result of a load that finds a torn record behind what it has loaded. -/
def refused : Option (IoResult Unit) × ShardedDatabase n →
    Option (IoResult Unit) × ShardedDatabase n
  | (some (.ok ()), db) =>
    (some (.error ⟨.invalidData, "failed to parse AOF RESP command: incomplete RESP frame"⟩), db)
  | result => result

theorem load_log_torn {log : List Record} {r : Record} {p : Bytes}
    (hfile : files path = some (logBytes log ++ p))
    (hsize : Loadable (logBytes log ++ r.bytes)) (hp : p <+: r.bytes) (hne : p ≠ r.bytes)
    (hnil : p ≠ []) : load n hash path c files =
      refused (ShardedDatabase.runAt c (replayAll hash log) (ShardedDatabase.new n)) := by
  have hdb := @run_onDb _ c none _ (replayAll hash log) (World.restarted (n := n) files (ServerStats.new c))
  rw [load, loadAndReplay_torn hfile hsize hp hne hnil]
  change _ = refused ((replayAll hash log).run (ShardedDatabase.exec c) (ShardedDatabase.new n))
  rcases hrun : (replayAll hash log).run (ShardedDatabase.exec c) (ShardedDatabase.new n)
    with ⟨_ | error | ⟨⟩, db⟩ <;>
    rw [show (World.restarted files (ServerStats.new c)).kv.db = ShardedDatabase.new n from rfl,
      hrun] at hdb
  · rw [run_andThen_panic hdb]
    rfl
  · rw [run_andThen_error hdb]
    rfl
  · rw [run_andThen_ok hdb]
    rfl

theorem put_self (files : FileSystem) (path : Path) (bytes : Bytes) :
    files.put path bytes path = some bytes := Function.update_self ..

end Restarts

section Torn

/-- The encodings of commands that were appended at their times. -/
def appendedBytes (acked : List (Clock × Command)) : Bytes :=
  (acked.filterMap fun p => commandToRespBytes p.1 p.2).flatten

theorem appendedBytes_eq {acked : List (Clock × Command)} (h : ∀ p ∈ acked, Decoded p.2) :
    appendedBytes acked = logBytes (acked.filterMap fun p => logged p.1 p.2) := by
  rw [appendedBytes, logBytes, List.map_filterMap]
  congr 1
  exact List.filterMap_congr fun p hp => commandToRespBytes_eq p.1 p.2 (h p hp).wellFormed.ne_del_nil

/-- What a torn record at the end of the log does to a restart: if none of its bytes are
there, nothing; else the acknowledged records are replayed and the file is then refused. -/
theorem load_torn (n : ℕ) (hash : String → UInt64) (path : Path) (files : FileSystem)
    (acked : List (Clock × Command)) (hacked : ∀ p ∈ acked, Decoded p.2) (c : Clock)
    (cmd : Command) (hcmd : Decoded cmd) (bytes torn : Bytes)
    (hb : commandToRespBytes c cmd = some bytes) (hp : torn <+: bytes) (hne : torn ≠ bytes)
    (hsize : Loadable (appendedBytes acked ++ bytes)) (t : Clock) :
    load n hash path t (files.put path (appendedBytes acked ++ torn)) =
      if torn = [] then load n hash path t (files.put path (appendedBytes acked))
      else refused (load n hash path t (files.put path (appendedBytes acked))) := by
  rw [commandToRespBytes_eq c cmd hcmd.wellFormed.ne_del_nil] at hb
  obtain ⟨r, -, rfl⟩ := Option.map_eq_some_iff.mp hb
  rw [appendedBytes_eq hacked] at hsize ⊢
  split_ifs with hnil
  · rw [hnil, List.append_nil]
  · rw [load_log_torn (put_self ..) hsize hp hne hnil,
      load_records (put_self ..) (hsize.of_le (by simp))]

def samplePath : Path := ⟨"", some "rustkv.aof"⟩

/-- `SET k v` is in the log, and the first byte of a `FLUSHDB`. -/
theorem load_torn_sample : load 0 (fun _ => 0) samplePath ⟨1, 1⟩
      (FileSystem.put (fun _ => none) samplePath
        (appendedBytes [(⟨0, 0⟩, .set "k" [1] none)] ++ [42])) =
    if [42] = ([] : Bytes) then load 0 (fun _ => 0) samplePath ⟨1, 1⟩
      (FileSystem.put (fun _ => none) samplePath (appendedBytes [(⟨0, 0⟩, .set "k" [1] none)]))
    else refused (load 0 (fun _ => 0) samplePath ⟨1, 1⟩
      (FileSystem.put (fun _ => none) samplePath
        (appendedBytes [(⟨0, 0⟩, .set "k" [1] none)]))) := by
  refine load_torn 0 _ samplePath _ _ ?_ ⟨0, 0⟩ .flushDb (Record.decoded .flushDb)
    (Record.bytes .flushDb) [42] rfl ?_ ?_ ?_ ⟨1, 1⟩
  · rintro p hp
    rw [List.mem_singleton] at hp
    exact hp ▸ Record.decoded (.set "k" [1])
  · decide +kernel
  · decide +kernel
  · unfold Loadable
    decide +kernel

/-- A torn record makes the restart fail. -/
theorem load_torn_fails : ¬ ∀ (acked : List (Clock × Command)) (c : Clock) (cmd : Command)
    (bytes torn : Bytes), (∀ p ∈ acked, Decoded p.2) → Decoded cmd →
    commandToRespBytes c cmd = some bytes → torn <+: bytes → torn ≠ bytes →
    ∀ t, (load 0 (fun _ => 0) samplePath t
      (FileSystem.put (fun _ => none) samplePath (appendedBytes acked ++ torn))).1 =
        some (.ok ()) := by
  intro hall
  have h := hall [] ⟨0, 0⟩ .flushDb (Record.bytes .flushDb) [42] (by simp)
    (Record.decoded .flushDb) rfl (by decide +kernel) (by decide +kernel) ⟨1, 1⟩
  have hsize : Loadable (logBytes [] ++ Record.bytes .flushDb) := by
    unfold Loadable
    decide +kernel
  rw [show appendedBytes [] = logBytes [] from rfl, load_log_torn (put_self ..) hsize
    (by decide +kernel) (by decide +kernel) (by simp)] at h
  cases h

end Torn

/-- The record that a request puts into the log, if it is a write command. -/
def Visit.record (v : Visit) : Option Record :=
  match Command.fromResp v.request.resp with
  | .ok cmd => logged v.clock cmd
  | .error _ => none

/-- The bytes that a request leaves at the end of the log. -/
def Visit.written (v : Visit) : Bytes :=
  match v.record with
  | some r => appended v.fault r.bytes []
  | none => []

theorem Visit.record_error {v : Visit} {error : KvError}
    (h : Command.fromResp v.request.resp = .error error) : v.record = none := by
  rw [record, h]

theorem Visit.record_ok {v : Visit} {cmd : Command}
    (h : Command.fromResp v.request.resp = .ok cmd) : v.record = logged v.clock cmd := by
  rw [record, h]

theorem Visit.written_none {v : Visit} (h : v.record = none) : v.written = [] := by
  rw [written, h]

theorem Visit.written_some {v : Visit} {r : Record} (h : v.record = some r) :
    v.written = appended v.fault r.bytes [] := by
  rw [written, h]

/-- All records of the requests, also those whose append fails. -/
def allRecords (vs : List Visit) : List Record := vs.filterMap Visit.record

/-- What requests do to the server, from whatever clients: a panic ends the task of its
client and nothing else. -/
def World.after {n : ℕ} (hash : String → UInt64) (toJson : ServerStatsSnapshot → KvResult String)
    (vs : List Visit) (w : World n) : World n :=
  vs.foldl (fun w v =>
    ((handleFrame hash toJson true v.request.frame).run (exec v.clock v.fault) w).2) w

section Runs
open World
variable {n : ℕ} {hash : String → UInt64} {toJson : ServerStatsSnapshot → KvResult String}
  {path : Path} {w : World n}

theorem appended_eq (fault : Option Fault) (bytes old : Bytes) :
    appended fault bytes old = old ++ appended fault bytes [] := by
  rw [appended, appended, List.nil_append]

/-- Executing and answering touch no file. -/
theorem run_answer_files {c : Clock} {fault : Option Fault} (p : KvM n RespValue) (w : World n) :
    ((ServerM.onKv p >>= ServerM.writeValue).run (exec c fault) w).2.files = w.files ∧
      ((ServerM.onKv p >>= ServerM.writeValue).run (exec c fault) w).2.engineFile =
        w.engineFile := by
  rw [Prog.run_bind, run_onKv]
  rcases p.run (Kv.exec c) w.kv with ⟨_ | reply, kv⟩ <;> exact ⟨rfl, rfl⟩

/-- A request appends its bytes to the log and leaves it open. -/
theorem handleFrame_files (hw : w.engineFile = some ⟨path⟩) {old : Bytes}
    (hf : w.files path = some old) (v : Visit) :
    let w' := ((handleFrame hash toJson true v.request.frame).run (exec v.clock v.fault) w).2
    w'.engineFile = some ⟨path⟩ ∧ w'.files path = some (old ++ v.written) := by
  cases hcmd : Command.fromResp v.request.resp with
  | error error =>
    rw [handleFrame_invalid hcmd, Visit.written_none (Visit.record_error hcmd), List.append_nil]
    exact ⟨hw, hf⟩
  | ok cmd =>
    have hwf : WellFormed cmd := Decoded.wellFormed ⟨_, hcmd⟩
    have hr := Visit.record_ok hcmd
    rw [handleFrame_valid hcmd]
    cases hl : logged v.clock cmd with
    | none =>
      obtain ⟨hfiles, hengine⟩ := run_answer_files (c := v.clock)
        (executeCommand hash toJson cmd) w
      rw [handleCommand_not_logged hwf hl, Visit.written_none (hr.trans hl), List.append_nil]
      exact ⟨hengine.trans hw, (congrFun hfiles path).trans hf⟩
    | some r =>
      have hb : commandToRespBytes v.clock cmd = some r.bytes := by
        rw [commandToRespBytes_eq v.clock cmd hwf.ne_del_nil, hl]
        rfl
      have hfile (fault : Option Fault) : (w.append path fault r.bytes).files path =
          some (old ++ appended fault r.bytes []) := by
        rw [append_files, hf, Option.getD_some, appended_eq]
      rw [handleCommand_logged hwf hl, Visit.written_some (hr.trans hl)]
      cases hfault : v.appendError with
      | none =>
        obtain ⟨hfiles, hengine⟩ := @run_answer_files _ v.clock v.fault
          (executeCommand hash toJson cmd) (w.append path v.fault r.bytes)
        rw [run_handleWrite hw hb hfault]
        exact ⟨hengine.trans hw, (congrFun hfiles path).trans (hfile v.fault)⟩
      | some error =>
        rw [run_handleWrite_failed hw hb hfault]
        exact ⟨hw, hfile v.fault⟩

/-- The log after a run. -/
theorem after_files (hw : w.engineFile = some ⟨path⟩) {old : Bytes} (hf : w.files path = some old)
    (vs : List Visit) : (after hash toJson vs w).engineFile = some ⟨path⟩ ∧
      (after hash toJson vs w).files path = some (old ++ (vs.map Visit.written).flatten) := by
  induction vs generalizing w old with
  | nil => exact ⟨hw, by simpa [after] using hf⟩
  | cons v vs ih =>
    obtain ⟨hw', hf'⟩ := handleFrame_files hw hf v
    obtain ⟨hw'', hf''⟩ := ih hw' hf'
    exact ⟨hw'', by simpa [after] using hf''⟩

end Runs

section Sample

/-- The request of a client that sends an array of bulk strings. -/
def Request.ofArgs (args : List Bytes) (h : Loadable (encodeArgs args)) : Request where
  frame := encodeArgs args
  resp := .array (args.map .bulkString)
  parses := by
    have hderives : Derives (.array (args.map .bulkString)) (encodeArgs args) :=
      derives_encodeResp _ (.array _ fun v hv => by
        obtain ⟨arg, -, rfl⟩ := List.mem_map.mp hv
        exact .bulkString arg) h.length_le
    have hparse := @parseRespOrPanic_derives _ _ _ ([]) hderives h (by simpa using h.length_le)
    rwa [List.append_nil] at hparse

/-- The request that is the record itself. -/
def Record.request (r : Record) (h : Loadable r.bytes) : Request := .ofArgs r.args h

/-- The server after the start-up on an empty disk. -/
def World.fresh (n : ℕ) (path : Path) : World n :=
  { kv := ⟨ShardedDatabase.new n, ServerStats.new ⟨0, 0⟩⟩
    files := FileSystem.put (fun _ => none) path []
    engineFile := some ⟨path⟩
    sent := [] }

theorem loadable_set : Loadable (Record.set "k" [118]).bytes := by
  unfold Loadable
  decide +kernel

end Sample

end RustKV

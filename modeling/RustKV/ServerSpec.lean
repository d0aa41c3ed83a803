import RustKV.AofReplay
import RustKV.Server

/-! One round of `handle_client`: a write command is appended to the log and executed as
on the abstract map; if the append fails, the command is not executed. -/
namespace RustKV
open Decimal TimedMap ServerM

/-- The error that an append returns, if it returns one. -/
def Fault.error (fault : Fault) : Option IoError := fault.write.or fault.sync

/-- The error with which the append of a request is answered. -/
def Visit.appendError (v : Visit) : Option IoError := v.fault.bind Fault.error

/-- The contents of the file after an append, which `fault` may strike. -/
def appended (fault : Option Fault) (bytes old : Bytes) : Bytes :=
  old ++ fault.elim bytes fun f => f.taken bytes

theorem isWriteCommand_logged (c : Clock) {cmd : Command} (h : WellFormed cmd) :
    isWriteCommand cmd = (logged c cmd).isSome := by
  cases cmd with
  | set key value duration => cases duration <;> rfl
  | del ks =>
    cases ks with
    | nil => exact absurd rfl h
    | cons => rfl
  | _ => rfl

namespace World
variable {n : ℕ} {c : Clock} {fault : Option Fault} {w : World n}

/-- The world after `write_value`. -/
def send (w : World n) (value : RespValue) : World n := { w with sent := w.sent ++ [value] }

/-- The world after an append to the open log. -/
def append (w : World n) (path : Path) (fault : Option Fault) (bytes : Bytes) : World n :=
  w.withFiles (w.files.put path (appended fault bytes ((w.files path).getD [])))

theorem append_files (w : World n) (path : Path) (fault : Option Fault) (bytes : Bytes) :
    (w.append path fault bytes).files path =
      some (appended fault bytes ((w.files path).getD [])) := Function.update_self ..

/-- `AofEngine::append` with the log open. -/
theorem run_append {path : Path} (hw : w.engineFile = some ⟨path⟩) {cmd : Command} {bytes : Bytes}
    (hb : commandToRespBytes c cmd = some bytes) :
    (AofEngine.append cmd).run (exec c fault) w =
      (some ((fault.bind Fault.error).elim (.ok ()) .error), w.append path fault bytes) := by
  have hfile : (AofEngine.fileMut : ServerM n _).run (exec c fault) w = (some (.ok ⟨path⟩), w) := by
    have hengine : (ServerM.engineFile : ServerM n _).run (exec c fault) w =
        (some (some ⟨path⟩), w) := congrArg (fun f => (some f, w)) hw
    exact Prog.run_bind_some hengine
  have hnow : (ServerM.now : ServerM n _).run (exec c fault) w = (some c, w) := by
    rw [ServerM.now, run_onDb]
    rfl
  rw [AofEngine.append, Prog.run_bind_some hnow, hb]
  refine (run_andThen_ok hfile).trans ?_
  have hwrite := @run_onFile _ c fault (.writeAll ⟨path⟩ bytes) w
  rcases fault with _ | ⟨written, _ | error, sync⟩
  · exact (run_andThen_ok (a := ()) hwrite).trans (run_onFile _ _)
  · exact (run_andThen_ok (a := ()) hwrite).trans (run_onFile _ _)
  · exact run_andThen_error hwrite

end World

section Rounds
open World
variable {n : ℕ} {hash : String → UInt64} {toJson : ServerStatsSnapshot → KvResult String}
  {c : Clock} {w : World n} {m : TimedMap String Bytes Instant} {path : Path}

/-- A write command whose append fails is answered with the error and not executed. -/
theorem run_handleWrite_failed (hw : w.engineFile = some ⟨path⟩) {cmd : Command} {bytes : Bytes}
    (hb : commandToRespBytes c cmd = some bytes) {fault : Option Fault} {error : IoError}
    (hfault : fault.bind Fault.error = some error) :
    (handleWrite hash toJson cmd).run (exec c fault) w =
      (some (.ok ()), (w.append path fault bytes).send (errorResponse error.text)) := by
  have happend := @run_append _ c fault w path hw cmd bytes hb
  rw [hfault] at happend
  exact Prog.run_bind_some happend

/-- A write command whose append succeeds is executed next. -/
theorem run_handleWrite (hw : w.engineFile = some ⟨path⟩) {cmd : Command} {bytes : Bytes}
    (hb : commandToRespBytes c cmd = some bytes) {fault : Option Fault}
    (hfault : fault.bind Fault.error = none) :
    (handleWrite hash toJson cmd).run (exec c fault) w =
      (onKv (executeCommand hash toJson cmd) >>= writeValue).run (exec c fault)
        (w.append path fault bytes) := by
  have happend := @run_append _ c fault w path hw cmd bytes hb
  rw [hfault] at happend
  refine (Prog.run_bind_some happend).trans ?_
  dsimp only [Option.elim_none]
  rw [Prog.run_bind, Prog.run_bind]
  rcases (onKv (executeCommand hash toJson cmd)).run (exec c fault) (w.append path fault bytes)
    with ⟨_ | reply, w'⟩ <;> rfl

/-- Executing a command whose deadline fits, and answering. -/
theorem ensures_answer {fault : Option Fault} (h : Simulates c hash w.kv.db m) (cmd : Command)
    (hf : cmd.Fits c m) : ∃ kv reply, Replies toJson c m cmd reply ∧
      Simulates c hash kv.db (cmd.after c m) ∧
      (onKv (executeCommand hash toJson cmd) >>= writeValue).run (exec c fault) w =
        (some (.ok ()), (w.withKv kv).send reply) := by
  obtain ⟨reply, kv, hrun, hr, hs⟩ := Kv.executeCommand_spec h cmd hf
  refine ⟨kv, reply, hr, hs, ?_⟩
  rw [Prog.run_bind_some (by rw [run_onKv, hrun])]
  rfl

theorem panics_answer {fault : Option Fault} (h : Simulates c hash w.kv.db m) (cmd : Command)
    (hf : ¬ cmd.Fits c m) : ∃ kv, Simulates c hash kv.db m ∧
      (onKv (executeCommand hash toJson cmd) >>= writeValue).run (exec c fault) w =
        (none, w.withKv kv) := by
  obtain ⟨kv, hrun, hs⟩ := Kv.executeCommand_panics h cmd hf
  exact ⟨kv, hs, Prog.run_bind_none (by rw [run_onKv, hrun])⟩

/-- What `parse_command` makes of a request. -/
theorem parseCommand_request (q : Request) : parseCommand q.frame =
    some (match Command.fromResp q.resp with
      | .error error => .error ("ERR " ++ error.toText)
      | .ok cmd => .ok cmd) := by
  rw [parseCommand, q.parses]
  rfl

theorem handleFrame_invalid {q : Request} {error : KvError} {aof : Bool} {fault : Option Fault}
    (h : Command.fromResp q.resp = .error error) :
    (handleFrame hash toJson aof q.frame).run (exec c fault) w =
      (some (.ok ()), w.send (errorResponse ("ERR " ++ error.toText))) := by
  rw [handleFrame, parseCommand_request, h]
  rfl

theorem handleFrame_valid {q : Request} {cmd : Command} {aof : Bool}
    (h : Command.fromResp q.resp = .ok cmd) :
    handleFrame (n := n) hash toJson aof q.frame = handleCommand hash toJson aof cmd := by
  rw [handleFrame, parseCommand_request, h]

/-- The world in which a command is executed: the command is in the log if it is logged. -/
def beforeExecution (path : Path) (c : Clock) (cmd : Command) (w : World n) : World n :=
  match logged c cmd with
  | none => w
  | some r => w.append path none r.bytes

@[simp] theorem beforeExecution_kv (cmd : Command) :
    (beforeExecution path c cmd w).kv = w.kv := by
  unfold beforeExecution
  cases logged c cmd <;> rfl

theorem handleCommand_logged {cmd : Command} (hc : WellFormed cmd) {r : Record}
    (h : logged c cmd = some r) :
    handleCommand (n := n) hash toJson true cmd = handleWrite hash toJson cmd := by
  rw [handleCommand, isWriteCommand_logged c hc, h]
  rfl

theorem handleCommand_not_logged {cmd : Command} (hc : WellFormed cmd) (h : logged c cmd = none) :
    handleCommand (n := n) hash toJson true cmd =
      onKv (executeCommand hash toJson cmd) >>= writeValue := by
  rw [handleCommand, isWriteCommand_logged c hc, h]
  rfl

/-- With the log on and no fault, a command is logged, executed and answered. -/
theorem run_handleCommand (hw : w.engineFile = some ⟨path⟩) {cmd : Command} (hc : WellFormed cmd) :
    (handleCommand hash toJson true cmd).run (exec c none) w =
      (onKv (executeCommand hash toJson cmd) >>= writeValue).run (exec c none)
        (beforeExecution path c cmd w) := by
  have hb := commandToRespBytes_eq c cmd hc.ne_del_nil
  rw [beforeExecution]
  cases hl : logged c cmd with
  | none => rw [handleCommand_not_logged hc hl]
  | some r =>
    rw [hl] at hb
    rw [handleCommand_logged hc hl]
    exact run_handleWrite hw hb rfl

end Rounds

end RustKV

import RustKV.AofRecords
import RustKV.ExecutorSpec

/-! Loading a log. A file that holds records, one after the other, is replayed as the
fold of their effects on the abstract map; behind them, a torn record is an error. -/
namespace RustKV
open Decimal TimedMap

/-- The operation of a record. -/
def Record.op : Record → DbOp
  | .set key value => .set key value none
  | .setPxAt key value ts => .setAtMs key value ts
  | .del key ks => .del (key :: ks)
  | .expireAt key ts => .expireAtMs key ts
  | .flushDb => .flushdb

@[simp] theorem Record.command_dbOp (r : Record) : r.command.dbOp = some r.op := by
  cases r <;> rfl

def logBytes (log : List Record) : Bytes := (log.map Record.bytes).flatten

@[simp] theorem logBytes_nil : logBytes [] = [] := rfl
@[simp] theorem logBytes_cons (r : Record) (log : List Record) :
    logBytes (r :: log) = r.bytes ++ logBytes log := rfl
@[simp] theorem logBytes_append (log log' : List Record) :
    logBytes (log ++ log') = logBytes log ++ logBytes log' := by
  simp [logBytes]

/-- What the records do to the abstract map when all of them are executed at one time. -/
noncomputable def replay (c : Clock) (m : TimedMap String Bytes Instant) (log : List Record) :
    TimedMap String Bytes Instant := log.foldl (fun m r => (r.op.spec c m).2) m

/-- The deadlines of the records fit in an `Instant`. -/
def LogFits (c : Clock) (log : List Record) : Prop := ∀ r ∈ log, r.op.Representable c

/-- A file so small that its bytes, and as many frames, fit in an allocation. -/
def Loadable (bytes : Bytes) : Prop := bytes.length * frameSize ≤ isizeMax

theorem Loadable.length_le {bytes : Bytes} (h : Loadable bytes) : bytes.length ≤ isizeMax := by
  unfold Loadable frameSize at h
  omega

theorem Loadable.of_le {x y : Bytes} (h : Loadable y) (hl : x.length ≤ y.length) : Loadable x :=
  (Nat.mul_le_mul_right _ hl).trans h

section Commands
variable {n : ℕ} {hash : String → UInt64} {c : Clock} {db : ShardedDatabase n}
  {m : TimedMap String Bytes Instant}
open ShardedDatabase

theorem ensures_replayed {α : Type} {wrap : KvResult α → DbReply} {result : α}
    {p : DbM n (DbOutcome (KvResult α))} {P : ShardedDatabase n → Prop}
    (hwrap : Function.Injective wrap)
    (hp : Prog.Ensures (exec c) (resultOf wrap p) db fun reply db' =>
      reply = wrap (.ok result) ∧ P db') :
    Prog.Ensures (exec c) (replayed p) db fun r db' => r = .ok () ∧ P db' := by
  refine Prog.ensures_bind (ensures_of_resultOf hp) fun outcome db' h => ?_
  rw [hwrap h.1]
  exact Prog.ensures_pure ⟨rfl, h.2⟩

theorem panics_replayed {α : Type} {wrap : KvResult α → DbReply}
    {p : DbM n (DbOutcome (KvResult α))} {db' : ShardedDatabase n}
    (hp : runAt c (resultOf wrap p) db = (none, db')) : runAt c (replayed p) db = (none, db') :=
  Prog.run_bind_none (panics_of_resultOf hp)

/-- Reading a key leaves the live entries as they are. -/
theorem simulates_read (h : Simulates c hash db m) (key : String) :
    Simulates c hash db (Function.update m key (view c.instant m key)) := by
  refine ⟨h.routed, h.view_eq.trans ?_⟩
  have hkey := congrFun (view_idem c.instant m) key
  rw [view_apply] at hkey
  rw [view_update, hkey, Function.update_eq_self]

/-- A command whose deadline fits is replayed as on the abstract map. -/
theorem replayCommand_spec (h : Simulates c hash db m) (cmd : Command) (hf : cmd.Fits c m) :
    Prog.Ensures (exec c) (replayCommand hash cmd) db fun r db' =>
      r = .ok () ∧ Simulates c hash db' (cmd.after c m) := by
  have hop (op : DbOp) (hop : cmd.dbOp = some op) := simulates_op h op (hf op hop)
  cases cmd with
  | set | setPxAt | flushDb =>
    exact ensures_replayed (fun _ _ => DbReply.unit.inj) (hop _ rfl)
  | del => exact ensures_replayed (fun _ _ => DbReply.count.inj) (hop _ rfl)
  | expire | expireAt => exact ensures_replayed (fun _ _ => DbReply.flag.inj) (hop _ rfl)
  | get key | exists' key | ttl key => exact Prog.ensures_pure ⟨rfl, simulates_read h key⟩
  | ping | info | unknown | keys => exact Prog.ensures_pure ⟨rfl, h⟩

theorem replayCommand_panics (h : Simulates c hash db m) (cmd : Command) (hf : ¬ cmd.Fits c m) :
    ∃ db', runAt c (replayCommand hash cmd) db = (none, db') ∧ Simulates c hash db' m := by
  have hop (op : DbOp) (ho : cmd.dbOp = some op) :
      ∃ db', runAt c (op.prog hash) db = (none, db') ∧ Simulates c hash db' m := by
    refine panics_op h op fun hfit => hf ?_
    rw [Command.Fits, ho]
    rintro _ ⟨⟩
    exact hfit
  cases cmd with
  | ping | info | unknown => exact absurd (by rintro _ ⟨⟩) hf
  | keys | flushDb | del | get | exists' | ttl =>
    exact absurd (Command.Fits.of_representable rfl (by exact trivial)) hf
  | set | setPxAt | expire | expireAt =>
    obtain ⟨db', hrun, hs⟩ := hop _ rfl
    exact ⟨db', panics_replayed hrun, hs⟩

end Commands

namespace World
open ServerM
variable {n : ℕ} {c : Clock} {fault : Option Fault} {w : World n} {α : Type}

def withKv (w : World n) (kv : Kv n) : World n := { w with kv := kv }

/-- The world with another database. -/
def withDb (w : World n) (db : ShardedDatabase n) : World n := { w with kv := { w.kv with db := db } }

@[simp] theorem withDb_db (w : World n) (db : ShardedDatabase n) : (w.withDb db).kv.db = db := rfl
@[simp] theorem withDb_files (w : World n) (db : ShardedDatabase n) :
    (w.withDb db).files = w.files := rfl
@[simp] theorem withDb_withDb (w : World n) (db db' : ShardedDatabase n) :
    (w.withDb db).withDb db' = w.withDb db' := rfl

theorem run_onKv (p : KvM n α) (w : World n) : (onKv p).run (exec c fault) w =
    ((p.run (Kv.exec c) w.kv).1, w.withKv (p.run (Kv.exec c) w.kv).2) := by
  have hact (a : KvAct n) (w : World n) :
      ((exec c fault (.kv a) w).1.map fun answer => answer, (exec c fault (.kv a) w).2) =
        ((Kv.exec c a w.kv).1, w.withKv (Kv.exec c a w.kv).2) := by
    simp only [exec]
    rcases Kv.exec c a w.kv with ⟨_ | r, kv⟩ <;> rfl
  exact Prog.run_lift World.kv withKv (fun _ _ => rfl) (fun _ _ _ => rfl) (fun _ => rfl) hact p w

theorem run_onDb (p : DbM n α) (w : World n) : (ServerM.onDb p).run (exec c fault) w =
    ((p.run (ShardedDatabase.exec c) w.kv.db).1,
      w.withDb (p.run (ShardedDatabase.exec c) w.kv.db).2) := by
  rw [ServerM.onDb, run_onKv, Kv.run_onDb]
  rfl

/-- The world with other files. -/
def withFiles (w : World n) (files : FileSystem) : World n := { w with files := files }

@[simp] theorem withFiles_self (w : World n) : w.withFiles w.files = w := rfl

theorem run_onFile (a : FileAct) (w : World n) : (onFile a).run (exec c fault) w =
    (some (FileSystem.execFaulty fault a w.files).1,
      w.withFiles (FileSystem.execFaulty fault a w.files).2) :=
  Prog.run_perform (h := exec c fault) (ServerAct.file a) w

theorem run_andThen_ok {β : Type} {p : ServerM n (IoResult α)} {f : α → ServerM n (IoResult β)}
    {a : α} {w' : World n} (hp : p.run (exec c fault) w = (some (.ok a), w')) :
    (andThen p f).run (exec c fault) w = (f a).run (exec c fault) w' := Prog.run_bind_some hp

theorem run_andThen_error {β : Type} {p : ServerM n (IoResult α)} {f : α → ServerM n (IoResult β)}
    {e : IoError} {w' : World n} (hp : p.run (exec c fault) w = (some (.error e), w')) :
    (andThen p f).run (exec c fault) w = (some (.error e), w') := Prog.run_bind_some hp

theorem run_andThen_panic {β : Type} {p : ServerM n (IoResult α)} {f : α → ServerM n (IoResult β)}
    {w' : World n} (hp : p.run (exec c fault) w = (none, w')) :
    (andThen p f).run (exec c fault) w = (none, w') := Prog.run_bind_none hp

end World

section Loop
variable {n : ℕ} {hash : String → UInt64}
open ServerM

theorem andThen_assoc {α β γ : Type} (p : ServerM n (IoResult α)) (f : α → ServerM n (IoResult β))
    (g : β → ServerM n (IoResult γ)) :
    andThen (andThen p f) g = andThen p fun a => andThen (f a) g := by
  refine (Prog.bind_assoc p _ _).trans (congrArg (p >>= ·) (funext fun r => ?_))
  cases r <;> rfl

theorem onDb_bind {α β : Type} (p : DbM n α) (f : α → DbM n β) :
    onDb (p >>= f) = onDb p >>= fun a => onDb (f a) :=
  (congrArg onKv (Prog.lift_bind p f)).trans (Prog.lift_bind _ _)

/-- Replay the commands of some records. -/
def replayAll (hash : String → UInt64) : List Record → DbM n (IoResult Unit)
  | [] => return .ok ()
  | r :: log => do
    match ← replayCommand hash r.command with
    | .error error => return .error error
    | .ok () => replayAll hash log

theorem onDb_replayAll_cons (r : Record) (log : List Record) :
    onDb (n := n) (replayAll hash (r :: log)) =
      andThen (onDb (replayCommand hash r.command)) fun _ => onDb (replayAll hash log) := by
  rw [replayAll, onDb_bind]
  refine congrArg (onDb (replayCommand hash r.command) >>= ·) (funext fun result => ?_)
  rcases result with error | ⟨⟩ <;> rfl

/-- One round of the loop, on a record at the front. -/
theorem replayRest_record (r : Record) (rest : Bytes) (fuel : ℕ)
    (hsize : Loadable (r.bytes ++ rest)) :
    replayRest (n := n) hash (fuel + 1) (r.bytes ++ rest) =
      andThen (onDb (replayCommand hash r.command)) fun _ => replayRest hash fuel rest := by
  have hr : r.bytes.length ≤ (r.bytes ++ rest).length := by simp
  have hparse := parseRespOrPanic_derives (r.derives (hr.trans hsize.length_le))
    (hsize.of_le hr) hsize.length_le
  rw [replayRest, if_neg (by simp [r.bytes_ne_nil]), hparse]
  simp only [fromResp_record, List.drop_left]

/-- The loop replays the records at the front of the file and goes on behind them. -/
theorem replayRest_log (log : List Record) (tail : Bytes) (fuel : ℕ)
    (hfuel : (logBytes log ++ tail).length ≤ fuel) (hsize : Loadable (logBytes log ++ tail)) :
    ∃ fuel', tail.length ≤ fuel' ∧ replayRest (n := n) hash fuel (logBytes log ++ tail) =
      andThen (onDb (replayAll hash log)) fun _ => replayRest hash fuel' tail := by
  induction log generalizing fuel with
  | nil => exact ⟨fuel, hfuel, rfl⟩
  | cons r log ih =>
    have hpos := List.length_pos_iff.mpr r.bytes_ne_nil
    rw [logBytes_cons, List.append_assoc] at hfuel hsize ⊢
    rw [List.length_append] at hfuel
    obtain ⟨fuel, rfl⟩ := Nat.exists_eq_succ_of_ne_zero (show fuel ≠ 0 by omega)
    obtain ⟨fuel', hf', hrun⟩ := ih fuel (by omega) (hsize.of_le (by simp))
    refine ⟨fuel', hf', ?_⟩
    rw [replayRest_record r _ fuel hsize, hrun, onDb_replayAll_cons, andThen_assoc]

theorem replayRest_nil (fuel : ℕ) : replayRest (n := n) hash fuel [] = pure (.ok ()) := by
  cases fuel <;> rfl

/-- A torn record ends the loop with an error. -/
theorem replayRest_torn {r : Record} {p : Bytes} {fuel : ℕ} (hsize : Loadable r.bytes)
    (hp : p <+: r.bytes) (hne : p ≠ r.bytes) (hnil : p ≠ []) (hfuel : p.length ≤ fuel) :
    replayRest (n := n) hash fuel p = pure (.error (parseFailure .incomplete)) := by
  have hpos := List.length_pos_iff.mpr hnil
  obtain ⟨fuel, rfl⟩ := Nat.exists_eq_succ_of_ne_zero (show fuel ≠ 0 by omega)
  have hparse := parseRespOrPanic_prefix (r.derives hsize.length_le) hsize hsize.length_le hp hne
  rw [replayRest, if_neg (by simpa using hnil), hparse]

end Loop

section Unique

theorem Record.command_injective : Function.Injective Record.command := by
  intro r r' h
  cases r <;> cases r' <;> simp_all [Record.command]

/-- A file holds one log. -/
theorem logBytes_inj {log log' : List Record} (hsize : Loadable (logBytes log))
    (h : logBytes log = logBytes log') : log = log' := by
  induction log generalizing log' with
  | nil =>
    cases log' with
    | nil => rfl
    | cons r' log' => exact absurd (List.append_eq_nil_iff.mp h.symm).1 r'.bytes_ne_nil
  | cons r log ih =>
    cases log' with
    | nil => exact absurd (List.append_eq_nil_iff.mp h).1 r.bytes_ne_nil
    | cons r' log' =>
      rw [logBytes_cons, logBytes_cons] at h
      rw [logBytes_cons] at hsize
      have hparse (r : Record) (rest : Bytes) (hsize : Loadable (r.bytes ++ rest)) :
          parseRespOrPanic frameSize (r.bytes ++ rest) = some (.ok (r.frame, r.bytes.length)) := by
        have hr : r.bytes.length ≤ (r.bytes ++ rest).length := by simp
        exact parseRespOrPanic_derives (r.derives (hr.trans hsize.length_le)) (hsize.of_le hr)
          hsize.length_le
      -- both records are what the parser reads
      have hread := hparse r _ hsize
      rw [h, hparse r' _ (h ▸ hsize)] at hread
      simp only [Option.some.injEq, Except.ok.injEq, Prod.mk.injEq] at hread
      obtain ⟨hframe, hlength⟩ := hread
      have hcommand := fromResp_record r
      rw [← hframe, fromResp_record r'] at hcommand
      obtain rfl : r = r' := Record.command_injective (Except.ok.inj hcommand).symm
      rw [ih (hsize.of_le (by simp)) (List.append_cancel_left h)]

end Unique

section Replaying
variable {n : ℕ} {hash : String → UInt64} {c : Clock} {db : ShardedDatabase n}
  {m m' : TimedMap String Bytes Instant}
open ShardedDatabase

/-- Replayed one after the other, no record sets a deadline that does not fit. -/
def ReplayFits (c : Clock) : TimedMap String Bytes Instant → List Record → Prop
  | _, [] => True
  | m, r :: log => r.op.Fits c m ∧ ReplayFits c (r.op.spec c m).2 log

theorem LogFits.replayFits {log : List Record} (h : LogFits c log) : ReplayFits c m log := by
  induction log generalizing m with
  | nil => trivial
  | cons r log ih =>
    obtain ⟨hr, hlog⟩ := List.forall_mem_cons.mp h
    exact ⟨hr.fits m, ih hlog⟩

theorem replayFits_append {log log' : List Record} :
    ReplayFits c m (log ++ log') ↔ ReplayFits c m log ∧ ReplayFits c (replay c m log) log' := by
  induction log generalizing m with
  | nil => simp [ReplayFits, replay]
  | cons r log ih => simp only [List.cons_append, ReplayFits, ih, and_assoc, replay, List.foldl_cons]

theorem replay_append (log log' : List Record) :
    replay c m (log ++ log') = replay c (replay c m log) log' := List.foldl_append ..

theorem Record.fits_command {r : Record} (h : r.op.Fits c m) : r.command.Fits c m := by
  rw [Command.Fits, Record.command_dbOp]
  rintro _ ⟨⟩
  exact h

/-- Records whose deadlines fit are replayed as on the abstract map. -/
theorem replayAll_spec (log : List Record) (h : Simulates c hash db m)
    (hfits : ReplayFits c m log) : ∃ db', Simulates c hash db' (replay c m log) ∧
      runAt c (replayAll hash log) db = (some (.ok ()), db') := by
  induction log generalizing m db with
  | nil => exact ⟨db, h, rfl⟩
  | cons r log ih =>
    obtain ⟨_, db', hrun, rfl, hs⟩ := replayCommand_spec h r.command (Record.fits_command hfits.1)
    rw [Command.after, Record.command_dbOp] at hs
    obtain ⟨db'', hs', hrun'⟩ := ih hs hfits.2
    exact ⟨db'', hs', (Prog.run_bind_some hrun).trans hrun'⟩

theorem replayAll_panics (log : List Record) (h : Simulates c hash db m)
    (hfits : ¬ ReplayFits c m log) : ∃ db', runAt c (replayAll hash log) db = (none, db') := by
  induction log generalizing m db with
  | nil => exact absurd trivial hfits
  | cons r log ih =>
    by_cases hr : r.op.Fits c m
    · obtain ⟨_, db', hrun, rfl, hs⟩ := replayCommand_spec h r.command (Record.fits_command hr)
      rw [Command.after, Record.command_dbOp] at hs
      obtain ⟨db'', hrun'⟩ := ih hs fun hlog => hfits ⟨hr, hlog⟩
      exact ⟨db'', (Prog.run_bind_some hrun).trans hrun'⟩
    · obtain ⟨db', hrun, -⟩ := replayCommand_panics h r.command fun hf =>
        hr (hf r.op (Record.command_dbOp r))
      exact ⟨db', Prog.run_bind_none hrun⟩

end Replaying

section Loading
open World
variable {n : ℕ} {hash : String → UInt64} {c : Clock} {fault : Option Fault} {w : World n}
  {path : Path}

theorem loadAndReplay_missing (hfile : w.files path = none) :
    (AofEngine.loadAndReplay hash path).run (exec c fault) w = (some (.ok ()), w) := by
  have hopen : (ServerM.onFile (.openRead path)).run (exec c fault) w =
      (some (.error FileSystem.notFound), w) := by
    simp [run_onFile, FileSystem.execFaulty, FileSystem.exec, hfile]
  exact Prog.run_bind_some hopen

theorem loadAndReplay_present {bytes : Bytes} (hfile : w.files path = some bytes) :
    (AofEngine.loadAndReplay hash path).run (exec c fault) w =
      (replayRest hash bytes.length bytes).run (exec c fault) w := by
  have hopen : (ServerM.onFile (.openRead path)).run (exec c fault) w = (some (.ok ⟨path⟩), w) := by
    simp [run_onFile, FileSystem.execFaulty, FileSystem.exec, hfile]
  have hread : (ServerM.onFile (.readToEnd ⟨path⟩)).run (exec c fault) w = (some (.ok bytes), w) := by
    simp [run_onFile, FileSystem.execFaulty, FileSystem.exec, hfile]
  exact (Prog.run_bind_some hopen).trans (run_andThen_ok hread)

/-- A log that is whole is replayed. -/
theorem loadAndReplay_log {log : List Record} (hfile : w.files path = some (logBytes log))
    (hsize : Loadable (logBytes log)) :
    (AofEngine.loadAndReplay hash path).run (exec c fault) w =
      (ServerM.onDb (replayAll hash log)).run (exec c fault) w := by
  obtain ⟨fuel', -, hrun⟩ := replayRest_log (n := n) log [] _ le_rfl
    (by simpa using hsize)
  rw [List.append_nil] at hrun
  rw [loadAndReplay_present hfile, hrun]
  simp only [replayRest_nil]
  refine (Prog.run_bind _ _ _).trans ?_
  rcases (ServerM.onDb (replayAll hash log)).run (exec c fault) w with ⟨_ | _ | _, w'⟩ <;> rfl

/-- A log with a torn record at its end is refused, after the records before it have been
replayed. -/
theorem loadAndReplay_torn {log : List Record} {r : Record} {p : Bytes}
    (hfile : w.files path = some (logBytes log ++ p)) (hsize : Loadable (logBytes log ++ r.bytes))
    (hp : p <+: r.bytes) (hne : p ≠ r.bytes) (hnil : p ≠ []) :
    (AofEngine.loadAndReplay hash path).run (exec c fault) w =
      (ServerM.andThen (ServerM.onDb (replayAll hash log)) fun _ =>
        pure (.error (parseFailure .incomplete))).run (exec c fault) w := by
  have hle : (logBytes log ++ p).length ≤ (logBytes log ++ r.bytes).length := by
    have := hp.length_le
    simp only [List.length_append]
    omega
  obtain ⟨fuel', hf', hrun⟩ := replayRest_log (n := n) log p _ le_rfl
    (hsize.of_le hle)
  rw [loadAndReplay_present hfile, hrun, replayRest_torn (hsize.of_le (by simp)) hp hne hnil hf']

end Loading

end RustKV

import RustKV.Executor
import RustKV.ShardedRuns

/-! `execute_command` on the abstract map: the reply of every command is determined by
the live entries, and a command panics exactly when it sets a deadline that does not
fit in an `Instant`. -/
namespace RustKV
open Decimal TimedMap

namespace Command

/-- The database operation of a command. -/
def dbOp : Command → Option DbOp
  | .set key value duration => some (.set key value duration)
  | .setPxAt key value ts => some (.setAtMs key value ts)
  | .get key => some (.get key)
  | .del ks => some (.del ks)
  | .exists' key => some (.exists' key)
  | .keys => some .keys
  | .expire key secs => some (.expire key secs)
  | .expireAt key ts => some (.expireAtMs key ts)
  | .ttl key => some (.ttl key)
  | .flushDb => some .flushdb
  | .ping | .info | .unknown _ => none

/-- The deadline that the command sets, if any, fits in an `Instant`. -/
def Fits (c : Clock) (m : TimedMap String Bytes Instant) (cmd : Command) : Prop :=
  ∀ op ∈ cmd.dbOp, op.Fits c m

theorem Fits.of_representable {c : Clock} {m : TimedMap String Bytes Instant} {cmd : Command}
    {op : DbOp} (ho : cmd.dbOp = some op) (h : op.Representable c) : cmd.Fits c m := by
  rw [Fits, ho]
  rintro _ ⟨⟩
  exact h.fits m

/-- The abstract map after the command. -/
noncomputable def after (c : Clock) (m : TimedMap String Bytes Instant) (cmd : Command) :
    TimedMap String Bytes Instant :=
  match cmd.dbOp with
  | some op => (op.spec c m).2
  | none => m

end Command

/-- The response to the result of a database operation. -/
def respond : DbReply → RespValue
  | .unit result => resultToOkResponse result
  | .value result => valueResponse result
  | .count result => countResponse result
  | .flag result => flagResponse result
  | .list result => keysResponse result
  | .seconds result => ttlResponse result

/-- The responses that a command may have on the abstract map; the JSON of INFO depends on
the statistics. -/
def Replies (toJson : ServerStatsSnapshot → KvResult String) (c : Clock)
    (m : TimedMap String Bytes Instant) (cmd : Command) (reply : RespValue) : Prop :=
  match cmd.dbOp with
  | some op => reply = respond (op.spec c m).1
  | none =>
    match cmd with
    | .unknown name => reply = errorResponse ("ERR unknown command '" ++ name ++ "'")
    | .info => ∃ stats, reply = infoResponse (toJson stats)
    | _ => reply = .simpleString "PONG"

namespace Kv
open KvM ServerStats
variable {n : ℕ} {c : Clock} {s : Kv n} {α β : Type}

section Parts

/-- The program changes nothing but statistics, and its value satisfies `Q`. -/
def StatsOnly (c : Clock) (p : KvM n α) (Q : α → Prop) : Prop :=
  ∀ s : Kv n, Prog.Ensures (exec c) p s fun a s' => Q a ∧ s'.db = s.db

theorem statsOnly_pure {a : α} {Q : α → Prop} (h : Q a) :
    StatsOnly c (pure a : KvM n α) Q := fun _ => Prog.ensures_pure ⟨h, rfl⟩

theorem statsOnly_bind {p : KvM n α} {f : α → KvM n β} {P : α → Prop} {Q : β → Prop}
    (hp : StatsOnly c p P) (hf : ∀ a, P a → StatsOnly c (f a) Q) : StatsOnly c (p >>= f) Q := by
  intro s
  refine Prog.ensures_bind (hp s) ?_
  rintro a s' ⟨hP, hdb⟩
  exact (hf a hP s').mono fun b s'' h => ⟨h.1, h.2.trans hdb⟩

theorem statsOnly_stat_bind {a : StatAct} {f : a.Answer → KvM n α} {Q : α → Prop}
    (h : ∀ r, StatsOnly c (f r) Q) :
    StatsOnly c (Prog.perform (R := KvAct.Answer) (KvAct.stat a) >>= f) Q :=
  fun _ => Prog.ensures_perform_bind (h := exec c) (a := KvAct.stat a) rfl (h _ _)

theorem statsOnly_snapshot : StatsOnly c (snapshot : KvM n _) fun _ => True := by
  refine statsOnly_stat_bind fun stored => statsOnly_stat_bind fun elapsed =>
    statsOnly_stat_bind fun _ => statsOnly_stat_bind fun names => ?_
  iterate 10 refine statsOnly_stat_bind fun _ => ?_
  exact statsOnly_pure trivial

theorem statsOnly_count_bind (outcome : DbOutcome β) {f : Unit → KvM n α} {Q : α → Prop}
    (h : StatsOnly c (f ()) Q) : StatsOnly c (RustKV.count outcome >>= f) Q :=
  statsOnly_stat_bind fun _ => statsOnly_stat_bind fun _ => h

/-- A database program inside `execute_command`. -/
theorem run_onDb (p : DbM n α) (s : Kv n) : (onDb p).run (exec c) s =
    ((p.run (ShardedDatabase.exec c) s.db).1,
      { s with db := (p.run (ShardedDatabase.exec c) s.db).2 }) := by
  have hact (a : DbAct n) (s : Kv n) :
      ((exec c (.db a) s).1.map fun answer => answer, (exec c (.db a) s).2) =
        ((ShardedDatabase.exec c a s.db).1,
          { s with db := (ShardedDatabase.exec c a s.db).2 }) := by
    simp only [exec]
    rcases ShardedDatabase.exec c a s.db with ⟨_ | r, db⟩ <;> rfl
  exact Prog.run_lift Kv.db (fun s db => { s with db := db }) (fun _ _ => rfl) (fun _ _ _ => rfl)
    (fun _ => rfl) hact p s

theorem ensures_onDb {p : DbM n α} {P : α → ShardedDatabase n → Prop}
    (hp : Prog.Ensures (ShardedDatabase.exec c) p s.db P) :
    Prog.Ensures (exec c) (onDb p) s fun a s' => P a s'.db := by
  obtain ⟨a, db, hrun, hP⟩ := hp
  exact ⟨a, { s with db := db }, by rw [run_onDb, hrun], hP⟩

/-- Run a database operation, then count it and answer. -/
theorem ensures_counted {p : DbM n (DbOutcome α)} {wrap : α → DbReply}
    {P : DbReply → ShardedDatabase n → Prop} {f : DbOutcome α → KvM n RespValue}
    (hp : Prog.Ensures (ShardedDatabase.exec c) (resultOf wrap p) s.db P)
    (hf : ∀ outcome, StatsOnly c (f outcome) (· = respond (wrap outcome.result))) :
    Prog.Ensures (exec c) (onDb p >>= f) s fun reply s' =>
      ∃ r, reply = respond r ∧ P r s'.db := by
  refine Prog.ensures_bind (ensures_onDb (ensures_of_resultOf hp)) fun outcome s' hP => ?_
  refine (hf outcome s').mono fun reply s'' h => ⟨wrap outcome.result, h.1, ?_⟩
  rw [h.2]
  exact hP

/-- A database operation that panics. -/
theorem panics_counted {p : DbM n (DbOutcome α)} {wrap : α → DbReply} {db : ShardedDatabase n}
    (f : DbOutcome α → KvM n RespValue)
    (hp : ShardedDatabase.runAt c (resultOf wrap p) s.db = (none, db)) :
    (onDb p >>= f).run (exec c) s = (none, { s with db := db }) := by
  refine Prog.run_bind_none ?_
  rw [run_onDb, show p.run (ShardedDatabase.exec c) s.db = _ from panics_of_resultOf hp]

end Parts

section Commands
variable {hash : String → UInt64} {toJson : ServerStatsSnapshot → KvResult String}
  {m : TimedMap String Bytes Instant}

theorem runCommand_spec (h : Simulates c hash s.db m) (cmd : Command) (hf : cmd.Fits c m) :
    Prog.Ensures (exec c) (runCommand hash toJson cmd) s fun reply s' =>
      Replies toJson c m cmd reply ∧ Simulates c hash s'.db (cmd.after c m) := by
  have hop (op : DbOp) (hop : cmd.dbOp = some op) := simulates_op h op (hf op hop)
  have hdone {r : DbReply} {op : DbOp} (ho : cmd.dbOp = some op) {db : ShardedDatabase n}
      {reply : RespValue} (hr : reply = respond r)
      (hs : r = (op.spec c m).1 ∧ Simulates c hash db (op.spec c m).2) :
      Replies toJson c m cmd reply ∧ Simulates c hash db (cmd.after c m) := by
    simp only [Replies, Command.after, ho]
    exact ⟨hr.trans (congrArg respond hs.1), hs.2⟩
  cases cmd with
  | ping => exact Prog.ensures_pure ⟨rfl, h⟩
  | unknown name => exact Prog.ensures_pure ⟨rfl, h⟩
  | set | setPxAt =>
    refine (ensures_counted (hop _ rfl) fun _ => ?_).mono fun reply s' hq =>
      let ⟨_, hr, hs⟩ := hq
      hdone rfl hr hs
    exact statsOnly_stat_bind fun _ => statsOnly_count_bind _ (statsOnly_pure rfl)
  | get | del =>
    refine (ensures_counted (hop _ rfl) fun _ => ?_).mono fun reply s' hq =>
      let ⟨_, hr, hs⟩ := hq
      hdone rfl hr hs
    exact statsOnly_stat_bind fun _ => statsOnly_count_bind _ (statsOnly_pure rfl)
  | exists' | expire | expireAt | ttl =>
    refine (ensures_counted (hop _ rfl) fun _ => ?_).mono fun reply s' hq =>
      let ⟨_, hr, hs⟩ := hq
      hdone rfl hr hs
    exact statsOnly_count_bind _ (statsOnly_pure rfl)
  | flushDb =>
    refine (ensures_counted (hop _ rfl) fun _ => ?_).mono fun reply s' hq =>
      let ⟨_, hr, hs⟩ := hq
      hdone rfl hr hs
    exact statsOnly_stat_bind fun _ => statsOnly_pure rfl
  | keys =>
    have hrun := run_onDb (c := c) ShardedDatabase.keys s
    rw [show ShardedDatabase.keys.run (ShardedDatabase.exec c) s.db = _ from
      ShardedDatabase.keys_spec h.routed] at hrun
    refine Prog.ensures_run_bind hrun (Prog.ensures_pure ⟨?_, h⟩)
    rw [liveKeys_congr h.view_eq]
    rfl
  | info =>
    refine Prog.ensures_bind (ensures_onDb (ShardedDatabase.infoSnapshot_spec h.routed)) ?_
    intro info s' hp
    have hstats : StatsOnly c (do
        setKeyCount info.keyCount
        setMemoryEstimateBytes info.memoryEstimateBytes
        incrExpiredKeysBy info.expiredCount
        let stats ← snapshot
        return infoResponse (toJson stats) : KvM n RespValue)
        fun reply => ∃ stats, reply = infoResponse (toJson stats) := by
      iterate 3 refine statsOnly_stat_bind fun _ => ?_
      exact statsOnly_bind statsOnly_snapshot fun stats _ => statsOnly_pure ⟨stats, rfl⟩
    refine (hstats s').mono fun reply s'' hq => ⟨hq.1, ?_⟩
    rw [hq.2]
    exact hp.simulates h

/-- A command whose deadline does not fit panics, and changes nothing to be seen. -/
theorem runCommand_panics (h : Simulates c hash s.db m) (cmd : Command) (hf : ¬ cmd.Fits c m) :
    ∃ s', (runCommand hash toJson cmd).run (exec c) s = (none, s') ∧ Simulates c hash s'.db m := by
  have hop (op : DbOp) (ho : cmd.dbOp = some op) :
      ∃ db', ShardedDatabase.runAt c (op.prog hash) s.db = (none, db') ∧
        Simulates c hash db' m := by
    refine panics_op h op fun hfit => hf ?_
    rw [Command.Fits, ho]
    rintro _ ⟨⟩
    exact hfit
  cases cmd with
  | ping | info | unknown => exact absurd (by rintro _ ⟨⟩) hf
  | keys | flushDb => exact absurd (by rintro _ ⟨⟩ _ ⟨⟩) hf
  | del keys => exact absurd (by rintro _ ⟨⟩ _ ⟨⟩) hf
  | set | setPxAt | get | exists' | expire | expireAt | ttl =>
    obtain ⟨db', hrun, hs⟩ := hop _ rfl
    exact ⟨_, panics_counted _ hrun, hs⟩

theorem executeCommand_run (cmd : Command) :
    ∃ s₀ : Kv n, s₀.db = s.db ∧ (executeCommand hash toJson cmd).run (exec c) s =
      (runCommand hash toJson cmd).run (exec c) s₀ := by
  unfold executeCommand
  split_ifs
  · exact ⟨s, rfl, rfl⟩
  · exact ⟨(exec c (.stat (.fetchAdd .totalCommands 1)) s).2, rfl, rfl⟩

/-- A command whose deadline fits is executed as on the abstract map. -/
theorem executeCommand_spec (h : Simulates c hash s.db m) (cmd : Command) (hf : cmd.Fits c m) :
    Prog.Ensures (exec c) (executeCommand hash toJson cmd) s fun reply s' =>
      Replies toJson c m cmd reply ∧ Simulates c hash s'.db (cmd.after c m) := by
  obtain ⟨s₀, hdb, hrun⟩ := executeCommand_run (c := c) (s := s) cmd
  rw [Prog.Ensures, hrun]
  exact runCommand_spec (hdb ▸ h) cmd hf

theorem executeCommand_panics (h : Simulates c hash s.db m) (cmd : Command)
    (hf : ¬ cmd.Fits c m) : ∃ s', (executeCommand hash toJson cmd).run (exec c) s = (none, s') ∧
      Simulates c hash s'.db m := by
  obtain ⟨s₀, hdb, hrun⟩ := executeCommand_run (c := c) (s := s) cmd
  rw [hrun]
  exact runCommand_panics (hdb ▸ h) cmd hf

end Commands

end Kv

end RustKV

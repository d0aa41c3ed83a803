import RustKV.ServerLives
import RustKV.ServerExpiry

/-! The start-up on a log that a server has left. If the deadlines that it sets are distant, the
server it starts has the keys and values of the one before, and its log agrees with its memory again,
so that any number of lives may follow one another. -/
namespace RustKV
open Decimal TimedMap Tasks Prog

section Replays
variable {n : ℕ} {hash : String → UInt64} {c T : Clock} {db : ShardedDatabase n}
  {m : TimedMap String Bytes Instant} {log : List Record}
open ShardedDatabase

/-- Replayed one after the other at the time `c`, no record sets a deadline but distant ones. -/
def ReplaysDistant (T c : Clock) : TimedMap String Bytes Instant → List Record → Prop
  | _, [] => True
  | m, r :: log => r.op.SetsDistant T c m ∧ ReplaysDistant T c (r.op.spec c m).2 log

/-- An operation on one key that sets no deadline but distant ones. -/
theorem distant_onKey (h0 : 0 ≤ c.unix) (hT : c.Advances T) (h : AllDistant T m) {key : String}
    {op : KeyOp} {wrap : op.Result → DbReply}
    (hd : ∀ d ∈ op.deadline c (view c.instant m key), Distant T d) :
    AllDistant T (DbOp.onKey c m key op wrap).2 ∧
      outline (DbOp.onKey c m key op wrap).2 = DbOp.sectionsOutline T [(key, op)] (outline m) := by
  rw [DbOp.onKey, (h.allAlive hT).view_eq]
  rw [(h.allAlive hT).view_eq] at hd
  constructor
  · intro k e he
    dsimp only at he
    by_cases hk : k = key
    · subst hk
      rw [Function.update_self] at he
      exact KeyOp.deadline_leaves (P := Distant T) (fun e' he' => h k e' he') hd e he
    · rw [Function.update_of_ne hk] at he
      exact h k e he
  · rw [outline_update, KeyOp.outline_leaves h0 hT op (m key) hd]
    rfl

/-- A record does to the outline at the start-up what it does later. -/
theorem distant_spec (h0 : 0 ≤ c.unix) (hT : c.Advances T) (h : AllDistant T m) (r : Record)
    (hd : r.op.SetsDistant T c m) : AllDistant T (r.op.spec c m).2 ∧
      outline (r.op.spec c m).2 = r.op.outline T (outline m) := by
  cases r with
  | set | setPxAt | expireAt => exact distant_onKey h0 hT h (hd _ rfl)
  | flushDb =>
    refine ⟨fun key e he => ?_, rfl⟩
    cases he
  | del key keys =>
    constructor
    · intro k e he
      change (if k ∈ key :: keys then none else m k) = some e at he
      split_ifs at he
      exact h k e he
    · refine Eq.trans ?_ (sectionsOutline_del (key :: keys) _).symm
      funext k
      change (eraseAll (key :: keys) m k).map Timed.outline = _
      rw [eraseAll]
      split_ifs <;> rfl

/-- Where nothing is dead, a deletion leaves the other entries. -/
theorem toMap_delLoop (keys : List String) (removed expired : ℕ) (hr : Routed hash db)
    (h : AllAlive c.instant (db.toMap hash)) : ∃ outcome db',
      runAt c (delLoop hash keys removed expired) db = (some outcome, db') ∧
        db'.toMap hash = eraseAll keys (db.toMap hash) := by
  induction keys generalizing removed expired db with
  | nil => exact ⟨_, db, rfl, funext fun k => (if_neg List.not_mem_nil).symm⟩
  | cons key keys ih =>
    have hspec := keyOp_run_spec c (db.shards (shardForKey hash key)) key .del
    obtain ⟨locked, hrun, hreply, -, -, heffect⟩ := hspec.returns (by simp [KeyOp.Fits, KeyOp.deadline])
    let after : ShardedDatabase n :=
      { db.setShard (shardForKey hash key)
          (KeyOp.run c (db.shards (shardForKey hash key)) key .del).2 with
        keyCount := lenAfterChange db.keyCount locked.before locked.after }
    have hafter : after.toMap hash = erase key (db.toMap hash) :=
      h.eq_of_effect (effect_setShard heffect)
    have halive : AllAlive c.instant (after.toMap hash) := by
      intro k e he
      rw [hafter] at he
      by_cases hk : k = key
      · rw [hk, erase_self] at he
        cases he
      · rw [erase_of_ne hk] at he
        exact h k e he
    let count := if (view c.instant (db.toMap hash) key).isSome then 1 else 0
    obtain ⟨outcome, db', hrun', hmap⟩ := @ih after (removed + count)
      (expired + (locked.before - locked.after - count)) (hr.effect heffect) halive
    refine ⟨outcome, db', ?_, ?_⟩
    · rw [← hrun']
      simp only [delLoop, runAt_acquire, runAt_shard, ShardCall.run, hrun, runAt_applyLenChange]
      rw [hreply]
      rfl
    · rw [hmap, hafter, eraseAll_cons]

/-- The replay of a record that sets a distant deadline. -/
theorem replayCommand_distant (hr : Routed hash db) (h : AllDistant T (db.toMap hash))
    (hT : c.Advances T) (r : Record) (hd : r.op.SetsDistant T c (db.toMap hash)) :
    Prog.Ensures (exec c) (replayCommand hash r.command) db fun result db' =>
      result = .ok () ∧ Routed hash db' ∧ db'.toMap hash = (r.op.spec c (db.toMap hash)).2 := by
  have halive := h.allAlive hT
  -- a section on one key
  have hkey {α : Type} {key : String} {op : KeyOp} {p : DbM n (DbOutcome (KvResult α))} {reply : α}
      (hfar : ∀ d ∈ op.deadline c (view c.instant (db.toMap hash) key), Distant T d)
      (hp : Prog.Ensures (exec c) p db fun outcome db' => outcome.result = .ok reply ∧
        Routed hash db' ∧ Effect c.instant key (db.toMap hash) (db'.toMap hash)
          (op.leaves c (view c.instant (db.toMap hash) key))) :
      Prog.Ensures (exec c) (replayed p) db fun result db' => result = .ok () ∧ Routed hash db' ∧
        db'.toMap hash = Function.update (db.toMap hash) key
          (op.leaves c (view c.instant (db.toMap hash) key)) := by
    refine Prog.ensures_bind hp fun outcome db' houtcome => ?_
    rw [houtcome.1]
    exact Prog.ensures_pure ⟨rfl, houtcome.2.1, halive.eq_of_effect houtcome.2.2⟩
  have hfits {key : String} {op : KeyOp}
      (hfar : ∀ d ∈ op.deadline c (view c.instant (db.toMap hash) key), Distant T d) :
      op.Fits c (view c.instant (db.toMap hash) key) := fun d hmem => (hfar d hmem).lt_limit
  cases r with
  | set | setPxAt | expireAt =>
    have hfar := hd _ rfl
    exact hkey hfar ((onShard_spec hr _ _).2 (hfits hfar))
  | flushDb =>
    obtain ⟨db', hrun, hr', hmap⟩ : ∃ db', runAt c flushdb db = (some ⟨.ok (), 0, 0⟩, db') ∧
        Routed hash db' ∧ db'.toMap hash = clear := flushdb_spec
    exact Prog.ensures_run_bind hrun (Prog.ensures_pure ⟨rfl, hr', hmap⟩)
  | del key keys =>
    obtain ⟨outcome, db', hrun, hreply, hr', -⟩ := del_spec (c := c) (key :: keys) hr
    obtain ⟨outcome', db'', hrun', hmap⟩ := toMap_delLoop (key :: keys) 0 0 hr halive
    have hdel : runAt c (ShardedDatabase.del hash (key :: keys)) db = (some outcome', db'') := by
      rw [ShardedDatabase.del, runAt_acquire, runAt_bind, hrun']
      rfl
    rw [hrun] at hdel
    cases hdel
    refine Prog.ensures_run_bind hrun ?_
    rw [hreply]
    exact Prog.ensures_pure ⟨rfl, hr', hmap⟩

/-- Records that set distant deadlines only are replayed as on the abstract map. -/
theorem replayAll_distant (h0 : 0 ≤ c.unix) (hT : c.Advances T) (hr : Routed hash db)
    (h : AllDistant T (db.toMap hash)) (hlog : ReplaysDistant T c (db.toMap hash) log) :
    ∃ db', runAt c (replayAll hash log) db = (some (.ok ()), db') ∧ Routed hash db' ∧
      AllDistant T (db'.toMap hash) ∧
      outline (db'.toMap hash) = log.foldl (fun σ r => r.op.outline T σ) (outline (db.toMap hash)) := by
  induction log generalizing db with
  | nil => exact ⟨db, rfl, hr, h, rfl⟩
  | cons r log ih =>
    obtain ⟨_, db', hrun, rfl, hr', hmap⟩ := replayCommand_distant hr h hT r hlog.1
    obtain ⟨hdistant, houtline⟩ := distant_spec h0 hT h r hlog.1
    rw [← hmap] at hdistant houtline
    obtain ⟨db'', hrun', hr'', hdistant', houtline'⟩ := ih hr' hdistant (hmap ▸ hlog.2)
    refine ⟨db'', (Prog.run_bind_some hrun).trans hrun', hr'', hdistant', ?_⟩
    rw [houtline', houtline, List.foldl_cons]

/-- The outline of a log that is replayed later. -/
theorem outline_replay (h0 : 0 ≤ T.unix) (log : List Record) (m : TimedMap String Bytes Instant) :
    outline (view T.instant (replay T m log)) =
      log.foldl (fun σ r => r.op.outline T σ) (outline (view T.instant m)) := by
  induction log generalizing m with
  | nil => rfl
  | cons r log ih =>
    rw [List.foldl_cons, ← outline_replayed h0 r]
    exact ih _

end Replays

section StartUp
variable {ι : Type} {n : ℕ} {hash : String → UInt64} {c T : Clock} {path : Path} {files : FileSystem}
  {log : List Record} {σ : Outline}
open ShardedDatabase

/-- The state after a start-up whose replay has left the database `db`. -/
theorem startUp_of_load {db : ShardedDatabase n} (h0 : 0 ≤ c.unix) (hT : c.Advances T)
    (hfile : (files path).getD [] = logBytes log) (hreplays : ReplaysTo T log (outline (db.toMap hash)))
    (hload : (AofEngine.loadAndReplay hash path).run (World.exec c none) (.restarted files (.new c)) =
      (some (.ok ()), (World.restarted files (.new c)).withDb db))
    (hr : Routed hash db) (hall : AllDistant T (db.toMap hash)) : ∃ w : World n,
      (startUp hash path).run (World.exec c none) (.restarted files (.new c)) = (some (.ok ()), w) ∧
        w.kv.db = db ∧ Steady T hash (ServerState.started ι c w) ∧
        Settled T hash path (ServerState.started ι c w) := by
  refine ⟨_, World.run_andThen_ok hload, rfl, ⟨hr, hall, hT, h0⟩, log, hreplays, ?_, rfl⟩
  change files.put path ((files path).getD []) path = some (logBytes log)
  rw [hfile, RustKV.put_self]

/-- A start-up on a log that sets distant deadlines only, or without a log. -/
theorem startUp_distant (h0 : 0 ≤ c.unix) (hT : c.Advances T)
    (hfile : (files path).getD [] = logBytes log) (hsize : Loadable (logBytes log))
    (hreplays : ReplaysTo T log σ) (hdistant : ReplaysDistant T c clear log) : ∃ w : World n,
      (startUp hash path).run (World.exec c none) (.restarted files (.new c)) = (some (.ok ()), w) ∧
        outline (w.kv.db.toMap hash) = σ ∧ Steady T hash (ServerState.started ι c w) ∧
        Settled T hash path (ServerState.started ι c w) := by
  have hclear : (ShardedDatabase.new n).toMap hash = clear := funext fun key => AList.lookup_empty key
  have hempty : Routed hash (ShardedDatabase.new n) := fun _ key h => absurd (AList.lookup_empty key) h
  have hnone : AllDistant T ((ShardedDatabase.new n).toMap hash) := by
    rw [hclear]
    intro key e he
    cases he
  obtain ⟨db, hrun, hr, hall, houtline⟩ :=
    replayAll_distant h0 hT hempty hnone (by rw [hclear]; exact hdistant)
  have hσ : outline (db.toMap hash) = σ := by
    rw [houtline, hclear, ← hreplays.replayed, outline_replay (h0.trans hT.unix_le)]
    rfl
  have hload : (AofEngine.loadAndReplay hash path).run (World.exec c none)
      (.restarted files (.new c)) = (some (.ok ()), (World.restarted files (.new c)).withDb db) := by
    cases hbytes : files path with
    | some bytes =>
      rw [hbytes, Option.getD_some] at hfile
      have hrun' : (replayAll hash log).run (exec c)
          (World.restarted (n := n) files (.new c)).kv.db = (some (.ok ()), db) := hrun
      rw [loadAndReplay_log (hbytes.trans (congrArg some hfile)) hsize, World.run_onDb, hrun']
    | none =>
      rw [hbytes, Option.getD_none] at hfile
      cases log with
      | cons r log => exact absurd (List.append_eq_nil_iff.mp hfile.symm).1 r.bytes_ne_nil
      | nil =>
        cases hrun
        exact loadAndReplay_missing hbytes
  rw [← hσ] at hreplays ⊢
  obtain ⟨w, hw, rfl, hsteady, hsettled⟩ := startUp_of_load (ι := ι) h0 hT hfile hreplays hload hr hall
  exact ⟨w, hw, rfl, hsteady, hsettled⟩

end StartUp

section Lives
variable {ι : Type} [DecidableEq ι] {n : ℕ} {settings : Settings} {T : Clock} {path : Path}
  {server server' first : ServerState (LifeTask ι) n}

/-- A life of the server, from the state after a start-up to the state in which its own task has
returned without an error. -/
def LivesTo (settings : Settings) (T : Clock) (server server' : ServerState (LifeTask ι) n) : Prop :=
  ∃ (sends : ι → List Bytes) (maxFrameSize : ℕ) (labels : List (Label (LifeTask ι)))
    (seen : List Instant) (cfg : LifeConfig ι n),
    Observed (steadyLife settings T) (lifeDeadlines settings)
      (.initial (.started server sends maxFrameSize)) labels seen cfg ∧
    (∀ d ∈ seen, Distant T d) ∧ cfg.status .main = .done (some (.ok ())) ∧ cfg.shared.server = server'

/-- A start-up at the time `c` on the files of a server whose life has ended; `log` is what the file
holds, and sets distant deadlines only. -/
structure StartsOn (T c : Clock) (path : Path) (log : List Record) (server : ServerState (LifeTask ι) n) :
    Prop where
  later : server.clock.Advances c
  before : c.Advances T
  file : server.files path = some (logBytes log)
  loadable : Loadable (logBytes log)
  distant : ReplaysDistant T c clear log

/-- From one start-up of the server to the next. -/
def Relives (settings : Settings) (T : Clock) (path : Path)
    (server server' : ServerState (LifeTask ι) n) : Prop :=
  ∃ last c log result w, LivesTo settings T server last ∧ StartsOn T c path log last ∧
    (startUp settings.hash path).run (World.exec c none) (.restarted last.files (.new c)) =
      (result, w) ∧ server' = .started (LifeTask ι) c w

/-- A life that begins in a settled state ends in one. -/
theorem LivesTo.settled (hpath : settings.aofPath = some path) (hsteady : Steady T settings.hash server)
    (hsettled : Settled T settings.hash path server) (h : LivesTo settings T server server') :
    Steady T settings.hash server' ∧ Settled T settings.hash path server' := by
  obtain ⟨sends, maxFrameSize, labels, seen, cfg, hrun, hseen, hmain, rfl⟩ := h
  exact settled_of_shutdown hpath hsteady hsettled hrun hseen hmain

/-- A start-up after a life that began in a settled state gives the memory back, and begins the next
life in a settled state. -/
theorem LivesTo.restart (hpath : settings.aofPath = some path) (hsteady : Steady T settings.hash server)
    (hsettled : Settled T settings.hash path server) (h : LivesTo settings T server server')
    {c : Clock} {log : List Record} (hstart : StartsOn T c path log server') : ∃ w : World n,
      (startUp settings.hash path).run (World.exec c none) (.restarted server'.files (.new c)) =
        (some (.ok ()), w) ∧
      outline (w.kv.db.toMap settings.hash) = outline (server'.kv.db.toMap settings.hash) ∧
      Steady T settings.hash (ServerState.started (LifeTask ι) c w) ∧
      Settled T settings.hash path (ServerState.started (LifeTask ι) c w) := by
  obtain ⟨hsteady', log', hlogs⟩ := h.settled hpath hsteady hsettled
  obtain rfl : log = log' :=
    logBytes_inj hstart.loadable (Option.some.inj (hstart.file.symm.trans hlogs.file))
  have h0 : 0 ≤ c.unix := hsteady'.epoch.trans hstart.later.unix_le
  exact startUp_distant h0 hstart.before (by rw [hstart.file, Option.getD_some]) hstart.loadable
    hlogs.toReplaysTo hstart.distant

/-- Every life begins in a settled state. -/
theorem settled_of_relives (hpath : settings.aofPath = some path)
    (hfirst : Steady T settings.hash first ∧ Settled T settings.hash path first)
    (h : Relation.ReflTransGen (Relives settings T path) first server) :
    Steady T settings.hash server ∧ Settled T settings.hash path server := by
  induction h with
  | refl => exact hfirst
  | tail _ hlast ih =>
    obtain ⟨last, c, log, result, w, hlives, hstart, hrun, rfl⟩ := hlast
    obtain ⟨w', hrun', -, hsettled⟩ := hlives.restart hpath ih.1 ih.2 hstart
    rw [hrun'] at hrun
    cases hrun
    exact hsettled

end Lives

section Sample

end Sample

end RustKV

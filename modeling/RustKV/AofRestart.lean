import RustKV.AofRuns
import RustKV.AofTrails

/-! A restart after a sequence of write commands. What the log brings back was alive in
memory, with the same value and deadline; what was alive comes back unless its key was
given a deadline that is reached at the restart and was replaced by a later one. -/
namespace RustKV
open Decimal TimedMap

/-- The commands of requests, each with its time. -/
def cmdsOf (vs : List Visit) : List (Clock × Command) :=
  vs.filterMap fun v =>
    match Command.fromResp v.request.resp with
    | .ok cmd => some (v.clock, cmd)
    | .error _ => none

/-- A request for a write command, before a restart at the time `t`. The append succeeds,
and the deadline of the command fits in an `Instant` and in `u64` Unix milliseconds. -/
structure WriteVisit (t : Clock) (v : Visit) (cmd : Command) : Prop where
  decodes : Command.fromResp v.request.resp = .ok cmd
  write : isWriteCommand cmd
  fault : v.fault = none
  advances : v.clock.Advances t
  epoch : 0 ≤ v.clock.unix
  unixFits : cmd.UnixFits v.clock
  representable : ∀ op ∈ cmd.dbOp, op.Representable v.clock

/-- Write commands at nondecreasing times, whose log is loaded at the time `t`: its deadlines
fit in an `Instant` then, and its frames in memory. -/
structure BeforeRestart (t : Clock) (vs : List Visit) : Prop where
  epoch : 0 ≤ t.unix
  ordered : vs.Pairwise fun u v => u.clock.Advances v.clock
  writes : ∀ v ∈ vs, ∃ cmd, WriteVisit t v cmd
  fits : LogFits t (allRecords vs)
  loadable : Loadable (logBytes (allRecords vs))

/-- No deadline, or deadlines at most a millisecond apart. -/
def CloseDeadlines : Option Instant → Option Instant → Prop
  | none, none => True
  | some d, some d' => |d - d'| ≤ 10^6
  | _, _ => False

/-- The entry is alive in the map at the time `t`, up to a millisecond of its deadline. -/
def Holds (t : Clock) (m : TimedMap String Bytes Instant) (key : String) (e : Entry) : Prop :=
  ∃ e', view t.instant m key = some e' ∧ e'.value = e.value ∧
    CloseDeadlines e'.expireAt e.expireAt

/-- The entry has no deadline, or one more than a millisecond away. -/
def Lasting (t : Clock) (e : Entry) : Prop := ∀ d ∈ e.expireAt, t.instant + 10^6 < d

section Commands
variable {t : Clock} {vs : List Visit}

theorem WriteVisit.wellFormed {v : Visit} {cmd : Command} (h : WriteVisit t v cmd) :
    WellFormed cmd := Decoded.wellFormed ⟨_, h.decodes⟩

theorem WriteVisit.timely {v : Visit} {cmd : Command} (h : WriteVisit t v cmd) :
    Timely t v.clock cmd := ⟨h.wellFormed, h.write, h.advances, h.epoch, h.unixFits⟩

theorem WriteVisit.mem_cmdsOf {p : Clock × Command} (hvs : ∀ v ∈ vs, ∃ cmd, WriteVisit t v cmd)
    (hp : p ∈ cmdsOf vs) : Timely t p.1 p.2 := by
  obtain ⟨v, hv, hcmd⟩ := List.mem_filterMap.mp hp
  obtain ⟨cmd, h⟩ := hvs v hv
  rw [h.decodes] at hcmd
  cases hcmd
  exact h.timely

/-- The log is that of the commands. -/
theorem logOf_cmdsOf (vs : List Visit) : logOf (cmdsOf vs) = allRecords vs := by
  rw [logOf, cmdsOf, List.filterMap_filterMap, allRecords]
  refine List.filterMap_congr fun v _ => ?_
  cases hcmd : Command.fromResp v.request.resp with
  | error error => rw [Visit.record_error hcmd]; rfl
  | ok cmd => rw [Visit.record_ok hcmd]; rfl

theorem Visit.written_of_no_fault {v : Visit} (h : v.fault = none) :
    v.written = logBytes v.record.toList := by
  cases hr : v.record with
  | none => rw [Visit.written_none hr]; rfl
  | some r => simp [Visit.written_some hr, h, appended]

/-- Without a fault the file holds the records. -/
theorem written_eq_logBytes (h : ∀ v ∈ vs, v.fault = none) :
    (vs.map Visit.written).flatten = logBytes (allRecords vs) := by
  induction vs with
  | nil => rfl
  | cons v vs ih =>
    obtain ⟨hv, hvs⟩ := List.forall_mem_cons.mp h
    rw [List.map_cons, List.flatten_cons, ih hvs, Visit.written_of_no_fault hv, ← logBytes_append]
    congr 1
    cases hr : v.record <;> simp [allRecords, hr]

end Commands

section Memory
open World
variable {n : ℕ} {hash : String → UInt64} {toJson : ServerStatsSnapshot → KvResult String}
  {path : Path} {w : World n} {t : Clock} {m : TimedMap String Bytes Instant}

/-- A write command is executed as on the abstract map. -/
theorem simulates_handleFrame (hw : w.engineFile = some ⟨path⟩) {v : Visit} {cmd : Command}
    (hv : WriteVisit t v cmd) (h : Simulates v.clock hash w.kv.db m) : Simulates v.clock hash
      ((handleFrame hash toJson true v.request.frame).run (exec v.clock v.fault) w).2.kv.db
      (cmd.after v.clock m) := by
  have hfits : cmd.Fits v.clock m := fun op hop => (hv.representable op hop).fits m
  rw [← beforeExecution_kv (c := v.clock) cmd] at h
  obtain ⟨kv, reply, -, hs, hrun⟩ := ensures_answer h cmd hfits
  rw [handleFrame_valid hv.decodes, hv.fault, run_handleCommand hw hv.wellFormed, hrun]
  exact hs

/-- The database after a run, at any later time. -/
theorem simulates_after (hw : w.engineFile = some ⟨path⟩) (hf : w.files path = some [])
    (hdb : w.kv.db = ShardedDatabase.new n) (vs : List Visit)
    (hordered : vs.Pairwise fun u v => u.clock.Advances v.clock)
    (hvs : ∀ v ∈ vs, ∃ cmd, WriteVisit t v cmd) {c : Clock}
    (hc : ∀ v ∈ vs, v.clock.Advances c) :
    Simulates c hash (after hash toJson vs w).kv.db (liveMap (cmdsOf vs) clear) := by
  induction vs using List.reverseRecOn generalizing c with
  | nil =>
    rw [show (after hash toJson [] w).kv.db = ShardedDatabase.new n from hdb]
    exact simulates_new
  | append_singleton vs v ih =>
    obtain ⟨cmd, hv⟩ := hvs v (by simp)
    obtain ⟨hpre, -, hlast⟩ := List.pairwise_append.mp hordered
    have hengine := (@after_files _ hash toJson _ _ hw _ hf vs).1
    have hbefore := ih hpre (fun u hu => hvs u (List.mem_append_left _ hu))
      fun u hu => hlast u hu v (List.mem_singleton_self v)
    have hstep := @simulates_handleFrame _ _ toJson _ _ _ _ hengine _ _ hv hbefore
    have hafter : after hash toJson (vs ++ [v]) w = ((handleFrame hash toJson true
        v.request.frame).run (exec v.clock v.fault) (after hash toJson vs w)).2 :=
      List.foldl_append ..
    have hlive : liveMap (cmdsOf (vs ++ [v])) clear =
        cmd.after v.clock (liveMap (cmdsOf vs) clear) := by
      simp [liveMap, cmdsOf, hv.decodes]
    rw [hafter, hlive]
    exact hstep.of_le (hc v (by simp)).instant_le

end Memory

section Restarted
open World
variable {n : ℕ} {hash : String → UInt64} {toJson : ServerStatsSnapshot → KvResult String}
  {path : Path} {w : World n} {t : Clock} {vs : List Visit}

/-- What the restart at the time `t` leaves under each key. -/
theorem load_after (k : ℕ) (hw : w.engineFile = some ⟨path⟩) (hf : w.files path = some [])
    (h : BeforeRestart t vs) :
    ∃ db, load k hash path t (after hash toJson vs w).files = (some (.ok ()), db) ∧
      ∀ key, view t.instant (db.toMap hash) key = (trailOf key (allRecords vs)).entryAt t := by
  have hfile := (@after_files _ hash toJson _ _ hw _ hf vs).2
  rw [List.nil_append, written_eq_logBytes fun v hv => (h.writes v hv).choose_spec.fault] at hfile
  obtain ⟨db, hload, hs⟩ := load_log (n := k) hfile h.loadable h.fits.replayFits
  exact ⟨db, hload, fun key => (congrFun hs.view_eq key).trans (view_replay h.epoch key _)⟩

/-- What is in memory at the time of the restart. -/
theorem running_after (hw : w.engineFile = some ⟨path⟩) (hf : w.files path = some [])
    (hdb : w.kv.db = ShardedDatabase.new n) (h : BeforeRestart t vs) (key : String) :
    view t.instant ((after hash toJson vs w).kv.db.toMap hash) key =
        view t.instant (liveMap (cmdsOf vs) clear) key ∧
      Tracks t (trailOf key (allRecords vs)) (liveMap (cmdsOf vs) clear key) := by
  have hs := @simulates_after _ hash toJson _ _ _ hw hf hdb vs h.ordered h.writes t
    fun v hv => (h.writes v hv).choose_spec.advances
  have htracks := tracks_run h.epoch key (cmdsOf vs) fun p hp => WriteVisit.mem_cmdsOf h.writes hp
  rw [logOf_cmdsOf] at htracks
  exact ⟨congrFun hs.view_eq key, htracks⟩

theorem Agrees.close (h0 : 0 ≤ t.unix) {ts : Option ℕ} {d : Option Instant} (h : Agrees t ts d)
    (hts : ∀ x ∈ ts, t.ms < x) :
    CloseDeadlines d (ts.map fun ts => t.after ((ts - t.ms) * 10^6)) := by
  cases ts with
  | none =>
    cases d with
    | none => trivial
    | some d => exact h.elim
  | some ts =>
    cases d with
    | none => exact h.elim
    | some d =>
      have hlt := hts ts rfl
      have hms := t.ms_bounds h0
      have hcast : (((ts - t.ms) * 10^6 : ℕ) : ℤ) = (ts - t.ms : ℤ) * 10^6 := by
        push_cast [Nat.cast_sub hlt.le]
        rfl
      have hd : t.after ((ts - t.ms) * 10^6) = t.instant + (ts - t.ms : ℤ) * 10^6 :=
        congrArg (t.instant + ·) hcast
      obtain ⟨h₁, h₂⟩ := h
      simp only [Option.map_some, CloseDeadlines, hd, abs_le]
      constructor <;> linarith

/-- An entry whose trail is not reached is alive in memory and after the restart. -/
theorem Tracks.holds (h0 : 0 ≤ t.unix) {p : Bytes × List ℕ} {m : TimedMap String Bytes Instant}
    {key : String} (h : Tracks t (some p) (m key)) (hp : ∀ ts ∈ p.2, t.ms < ts) :
    ∃ e', view t.instant m key = some e' ∧ e'.value = p.1 ∧
      CloseDeadlines e'.expireAt (p.2.getLast?.map fun ts => t.after ((ts - t.ms) * 10^6)) := by
  obtain ⟨d, hm, hag⟩ := h hp
  exact ⟨⟨p.1, d⟩, view_eq_some_iff.mpr ⟨hm, hag.alive h0 hp t.advances_refl⟩, rfl,
    hag.close h0 fun ts hts => hp ts (List.mem_of_getLast? hts)⟩

theorem CloseDeadlines.symm {d d' : Option Instant} (h : CloseDeadlines d d') :
    CloseDeadlines d' d := by
  rcases d with _ | d <;> rcases d' with _ | d'
  · trivial
  · exact h
  · exact h
  · exact (abs_sub_comm d' d).trans_le h

end Restarted

section Sample

def sampleTime (ms : ℕ) : Clock := ⟨ms * 10^6, ms * 10^6⟩

theorem sampleTime_advances {s t : ℕ} (h : s ≤ t) : (sampleTime s).Advances (sampleTime t) := by
  refine ⟨(t - s) * 10^6, ?_⟩
  simp only [sampleTime, Clock.mk.injEq, and_self]
  push_cast [Nat.cast_sub h]
  linarith

/-- `SET k v PX 100` -/
def setPx : Visit where
  clock := sampleTime 0
  fault := none
  request := .ofArgs [asBytes "SET", asBytes "k", [118], asBytes "PX", asBytes "100"]
    (by unfold Loadable; decide +kernel)

/-- `EXPIRE k 1000`, 50 ms later. -/
def extend : Visit where
  clock := sampleTime 50
  fault := none
  request := .ofArgs [asBytes "EXPIRE", asBytes "k", asBytes "1000"]
    (by unfold Loadable; decide +kernel)

theorem setPx_decodes : Command.fromResp setPx.request.resp =
    .ok (.set "k" [118] (some (100 * 10^6))) := by decide +kernel

theorem extend_decodes : Command.fromResp extend.request.resp = .ok (.expire "k" 1000) := by
  decide +kernel

theorem extended_records : allRecords [setPx, extend] =
    [.setPxAt "k" [118] 100, .expireAt "k" 1000050] := by
  have hset : expireAtMsFromNow (sampleTime 0) (100 * 10^6) = 100 := by decide +kernel
  have hexpire : expireAtMsFromNow (sampleTime 50) (Duration.fromSecs 1000) = 1000050 := by
    decide +kernel
  have h₁ := Visit.record_ok setPx_decodes
  have h₂ := Visit.record_ok extend_decodes
  rw [logged, show setPx.clock = sampleTime 0 from rfl, hset] at h₁
  rw [logged, show extend.clock = sampleTime 50 from rfl, hexpire] at h₂
  simp only [allRecords, List.filterMap_cons, List.filterMap_nil, h₁, h₂]

theorem extended_cmds : cmdsOf [setPx, extend] =
    [(sampleTime 0, .set "k" [118] (some (100 * 10^6))), (sampleTime 50, .expire "k" 1000)] := by
  simp only [cmdsOf, List.filterMap_cons, List.filterMap_nil, setPx_decodes, extend_decodes]
  rfl

/-- Both commands, and a restart after 200 ms. -/
theorem extended : BeforeRestart (sampleTime 200) [setPx, extend] where
  epoch := by decide
  ordered := List.pairwise_pair.mpr (sampleTime_advances (by decide))
  writes := by
    simp only [List.mem_cons, List.not_mem_nil, or_false, forall_eq_or_imp, forall_eq]
    refine ⟨⟨_, setPx_decodes, rfl, rfl, sampleTime_advances (by decide), by decide, ?_, ?_⟩,
      ⟨_, extend_decodes, rfl, rfl, sampleTime_advances (by decide), by decide, ?_, ?_⟩⟩
    · unfold Command.UnixFits
      decide +kernel
    · rintro _ ⟨⟩ _ ⟨⟩
      decide
    · unfold Command.UnixFits
      decide +kernel
    · rintro _ ⟨⟩
      unfold DbOp.Representable
      decide
  fits := by
    rw [extended_records]
    simp only [LogFits, List.mem_cons, List.not_mem_nil, or_false, forall_eq_or_imp, forall_eq]
    constructor
    · rintro _ ⟨⟩
    · rintro _ ⟨⟩
      decide
  loadable := by
    rw [extended_records]
    unfold Loadable
    decide +kernel

/-- The key lives in memory until 1000 s after the second command. -/
theorem extended_live : view (sampleTime 200).instant (liveMap (cmdsOf [setPx, extend]) clear) "k" =
    some ⟨[118], some ((sampleTime 50).after (Duration.fromSecs 1000))⟩ := by
  have hset : Command.after (sampleTime 0) clear (.set "k" [118] (some (100 * 10^6))) "k" =
      some ⟨[118], some ((sampleTime 0).after (100 * 10^6))⟩ := by
    simp [Command.after, Command.dbOp, DbOp.spec, DbOp.onKey, KeyOp.leaves]
  have hexpire {m : TimedMap String Bytes Instant}
      (h : m "k" = some ⟨[118], some ((sampleTime 0).after (100 * 10^6))⟩) :
      Command.after (sampleTime 50) m (.expire "k" 1000) "k" =
        some ⟨[118], some ((sampleTime 50).after (Duration.fromSecs 1000))⟩ := by
    have hview : view (sampleTime 50).instant m "k" = m "k" := by
      rw [view_apply, h]
      rfl
    simp only [Command.after, Command.dbOp, DbOp.spec, DbOp.onKey, KeyOp.leaves,
      Function.update_self, hview, h]
    rfl
  rw [extended_cmds, view_apply]
  exact (congrArg (Option.filter _) (hexpire hset)).trans rfl

/-- In the log it has a deadline that is reached. -/
theorem extended_trail : trailOf "k" (allRecords [setPx, extend]) = some ([118], [100, 1000050]) := by
  rw [extended_records]
  rfl

theorem extended_lasting :
    Lasting (sampleTime 200) ⟨[118], some ((sampleTime 50).after (Duration.fromSecs 1000))⟩ := by
  rintro _ ⟨⟩
  decide

end Sample

section Main
open World
variable {n : ℕ} {hash : String → UInt64} {toJson : ServerStatsSnapshot → KvResult String}
  {path : Path} {w : World n} {t : Clock} {vs : List Visit}

end Main

end RustKV

import RustKV.AofRuns

/-! Failed appends. The log that they leave has the contents that the answers promise exactly when every
append of the run does no harm. What an append leaves, and what it is answered with, depends on the disk
and on the error of an earlier write that the open file still holds. -/
namespace RustKV
open Decimal TimedMap

/-- The records of the requests that were not answered with an append error. -/
def acceptedLog (vs : List Visit) : List Record :=
  vs.filterMap fun v => if v.appendError.isNone then v.record else none

section Attempts

/-- How the disk fails in a write: it takes the first bytes and no more. The bytes are handed to it in
parts, and `last` tells that it failed in the last one. The error is as the file returns it. -/
structure WriteFailure where
  written : ℕ
  error : IoError
  last : Bool
  deriving DecidableEq

/-- What the disk does when an append hands its bytes over and waits for the sync. -/
structure DiskTurn where
  write : Option WriteFailure
  sync : Option IoError
  deriving DecidableEq

/-- An append to a `tokio::fs::File`, and the error that the file holds then. A write returns once its
last part is handed over: an error in that part is held for the next write, which returns it and hands
nothing over. The sync waits for the write, but does not return its error. -/
def DiskTurn.fault (d : DiskTurn) : Option IoError → Option Fault × Option IoError
  | some error => (some ⟨some 0, some error, none⟩, none)
  | none =>
    match d.write with
    | none => (some ⟨none, none, d.sync⟩, none)
    | some f =>
      if f.last then (some ⟨some f.written, none, d.sync⟩, some f.error)
      else (some ⟨some f.written, some f.error, none⟩, none)

/-- One request of a client, and what the disk does if it makes an append. -/
structure Attempt where
  clock : Clock
  request : Request
  disk : DiskTurn

/-- A request that finds the error `pending` in the file. -/
def Attempt.visit (a : Attempt) (pending : Option IoError) : Visit :=
  ⟨a.clock, (a.disk.fault pending).1, a.request⟩

/-- The error that the file holds after a request. Only write commands make an append. -/
def Attempt.leaves (a : Attempt) (pending : Option IoError) : Option IoError :=
  if (a.visit pending).record.isSome then (a.disk.fault pending).2 else pending

/-- The error that the file holds after requests, if it held `pending` before. -/
def pendingAfter (pending : Option IoError) (attempts : List Attempt) : Option IoError :=
  attempts.foldl (fun pending a => a.leaves pending) pending

/-- Requests one after the other, with what strikes their appends. -/
def visitsOf : Option IoError → List Attempt → List Visit
  | _, [] => []
  | pending, a :: attempts => a.visit pending :: visitsOf (a.leaves pending) attempts

theorem visitsOf_snoc (pending : Option IoError) (attempts : List Attempt) (a : Attempt) :
    visitsOf pending (attempts ++ [a]) =
      visitsOf pending attempts ++ [a.visit (pendingAfter pending attempts)] := by
  induction attempts generalizing pending with
  | nil => rfl
  | cons b attempts ih => simp only [List.cons_append, visitsOf, ih, pendingAfter, List.foldl_cons]

theorem visitsOf_front {pending : Option IoError} {pre attempts : List Attempt}
    (h : pre <+: attempts) : visitsOf pending pre <+: visitsOf pending attempts := by
  obtain ⟨rest, rfl⟩ := h
  induction rest using List.reverseRecOn with
  | nil => rw [List.append_nil]
  | append_singleton rest a ih =>
    rw [← List.append_assoc, visitsOf_snoc]
    exact ih.trans (List.prefix_append ..)

/-- An append that finds an error in the file is refused and writes nothing. -/
theorem Attempt.visit_pending (a : Attempt) (error : IoError) :
    (a.visit (some error)).appendError = some error ∧ (a.visit (some error)).written = [] := by
  refine ⟨rfl, ?_⟩
  unfold Visit.written
  split
  · rfl
  · rfl

end Attempts

section FailedAppends
open World
variable {n : ℕ} {hash : String → UInt64} {toJson : ServerStatsSnapshot → KvResult String}
  {path : Path} {w : World n} {t : Clock}

/-- The log after the requests is loaded at the time `t`, with the same contents as a file of
the records of the requests that were not answered with an append error. -/
def Intact (k : ℕ) (hash : String → UInt64) (path : Path) (t : Clock) (files : FileSystem)
    (vs : List Visit) : Prop :=
  ∃ db ref : ShardedDatabase k, load k hash path t files = (some (.ok ()), db) ∧
    load k hash path t (files.put path (logBytes (acceptedLog vs))) = (some (.ok ()), ref) ∧
    view t.instant (db.toMap hash) = view t.instant (ref.toMap hash)

/-- The record changes nothing where the log holds `m` at the time `t`. -/
def Record.Idle (t : Clock) (m : TimedMap String Bytes Instant) (r : Record) : Prop :=
  view t.instant (r.op.spec t m).2 = view t.instant m

/-- An append does no harm where the log holds `m` at the time `t`. This depends on the record and on
what strikes the append. If no error is returned, the deadline of the record fits in an `Instant`, and
the file takes the record, or none of it, which changes nothing. If an error is returned, the file takes
nothing of the record, or all of it, which fits and changes nothing. -/
def Visit.Harmless (t : Clock) (m : TimedMap String Bytes Instant) (v : Visit) : Prop :=
  ∀ r ∈ v.record, match v.appendError with
    | none => r.op.Fits t m ∧ (v.written = r.bytes ∨ v.written = [] ∧ r.Idle t m)
    | some _ => v.written = [] ∨ v.written = r.bytes ∧ r.op.Fits t m ∧ r.Idle t m

/-- The log after the requests is a list of records with the contents that it should have. -/
def Whole (t : Clock) (vs : List Visit) : Prop :=
  ReplayFits t clear (acceptedLog vs) ∧ ∃ log, (vs.map Visit.written).flatten = logBytes log ∧
    ReplayFits t clear log ∧
    view t.instant (replay t clear log) = view t.instant (replay t clear (acceptedLog vs))

theorem whole_nil : Whole t [] := ⟨trivial, [], rfl, trivial, rfl⟩

theorem acceptedLog_append (vs : List Visit) (v : Visit) : acceptedLog (vs ++ [v]) =
    acceptedLog vs ++ (if v.appendError.isNone then v.record else none).toList := by
  simp only [acceptedLog, List.filterMap_append, List.filterMap_cons, List.filterMap_nil]
  cases (if v.appendError.isNone then v.record else none) <;> rfl

/-- One more record at the end of both logs. -/
theorem replayFits_snoc {log : List Record} {r : Record} : ReplayFits t clear (log ++ [r]) ↔
    ReplayFits t clear log ∧ r.op.Fits t (replay t clear log) := by
  rw [replayFits_append]
  simp [ReplayFits]

theorem replay_snoc (log : List Record) (r : Record) :
    replay t clear (log ++ [r]) = (r.op.spec t (replay t clear log)).2 := replay_append log [r]

theorem Whole.append {vs : List Visit} {v : Visit} (h : Whole t vs)
    (hv : v.Harmless t (replay t clear (acceptedLog vs))) : Whole t (vs ++ [v]) := by
  obtain ⟨hfits, log, hbytes, hlog, hview⟩ := h
  rw [Whole, acceptedLog_append]
  simp only [List.map_append, List.flatten_append, hbytes, List.map_cons, List.map_nil,
    List.flatten_cons, List.flatten_nil, List.append_nil]
  cases hr : v.record with
  | none =>
    exact ⟨by simpa [hr] using hfits, log, by rw [Visit.written_none hr, List.append_nil], hlog,
      by simpa [hr] using hview⟩
  | some r =>
    have hv := hv r hr
    -- both logs may take the record
    have hlog' (hr : r.op.Fits t (replay t clear (acceptedLog vs))) :
        ReplayFits t clear (log ++ [r]) :=
      replayFits_snoc.mpr ⟨hlog, (DbOp.fits_congr hview r.op).mpr hr⟩
    have hview' : view t.instant (replay t clear (log ++ [r])) =
        view t.instant (r.op.spec t (replay t clear (acceptedLog vs))).2 := by
      rw [replay_snoc]
      exact DbOp.view_spec_congr hview r.op
    cases hf : v.appendError with
    | none =>
      rw [hf] at hv
      simp only [Option.isNone_none, if_true, Option.toList_some]
      obtain ⟨hr, hw | ⟨hw, hidle⟩⟩ := hv
      · refine ⟨replayFits_snoc.mpr ⟨hfits, hr⟩, log ++ [r], by simp [hw], hlog' hr, ?_⟩
        rw [hview', replay_snoc]
      · refine ⟨replayFits_snoc.mpr ⟨hfits, hr⟩, log, by simp [hw], hlog, ?_⟩
        rw [replay_snoc]
        exact hview.trans hidle.symm
    | some error =>
      rw [hf] at hv
      simp only [Option.isNone_some, Bool.false_eq_true, if_false, Option.toList_none,
        List.append_nil]
      refine ⟨hfits, ?_⟩
      rcases hv with hw | ⟨hw, hr, hidle⟩
      · exact ⟨log, by simp [hw], hlog, hview⟩
      · exact ⟨log ++ [r], by simp [hw], hlog' hr, hview'.trans hidle⟩

theorem written_isPrefix {v : Visit} {r : Record} (hr : v.record = some r) : v.written <+: r.bytes := by
  rw [Visit.written_some hr]
  rcases v.fault with _ | ⟨_ | written, write, sync⟩
  · exact List.prefix_rfl
  · exact List.prefix_rfl
  · exact List.take_prefix ..

theorem length_written_le (vs : List Visit) :
    (vs.map Visit.written).flatten.length ≤ (logBytes (allRecords vs)).length ∧
      (logBytes (acceptedLog vs)).length ≤ (logBytes (allRecords vs)).length := by
  induction vs with
  | nil => exact ⟨le_rfl, le_rfl⟩
  | cons v vs ih =>
    obtain ⟨h₁, h₂⟩ := ih
    simp only [allRecords, acceptedLog] at h₁ h₂ ⊢
    simp only [List.map_cons, List.flatten_cons, List.length_append, List.filterMap_cons]
    cases hr : v.record with
    | none =>
      rw [Visit.written_none hr, List.length_nil, Nat.zero_add, ite_self]
      exact ⟨h₁, h₂⟩
    | some r =>
      have := (written_isPrefix hr).length_le
      rcases v.appendError with _ | error <;>
        simp only [Option.isNone_none, Option.isNone_some, if_true, Bool.false_eq_true, if_false,
          logBytes_cons, List.length_append] <;> omega

theorem Loadable.pre {pre vs : List Visit} (h : Loadable (logBytes (allRecords vs)))
    (hp : pre <+: vs) : Loadable (logBytes (allRecords pre)) := by
  obtain ⟨rest, rfl⟩ := hp
  refine h.of_le ?_
  simp [allRecords]

/-- A whole log is intact. -/
theorem Whole.intact {k : ℕ} {vs : List Visit} {files : FileSystem} (h : Whole t vs)
    (hfile : files path = some (vs.map Visit.written).flatten)
    (hsize : Loadable (logBytes (allRecords vs))) : Intact k hash path t files vs := by
  obtain ⟨hfits, log, hbytes, hlog, hview⟩ := h
  obtain ⟨h₁, h₂⟩ := length_written_le vs
  rw [hbytes] at hfile h₁
  obtain ⟨db, hload, hs⟩ := load_log (n := k) hfile (hsize.of_le h₁) hlog
  obtain ⟨ref, hload', hs'⟩ := load_log (n := k) (put_self files path _)
    (hsize.of_le h₂) hfits
  exact ⟨db, ref, hload, hload', hs.view_eq.trans (hview.trans hs'.view_eq.symm)⟩

theorem refused_ne_ok {k : ℕ} (result : Option (IoResult Unit) × ShardedDatabase k) :
    (refused result).1 ≠ some (.ok ()) := by
  rcases result with ⟨_ | _ | ⟨⟩, db⟩ <;> simp [refused]

/-- A file of records that is loaded holds what they put there, and all their deadlines fit. -/
theorem fits_of_load {k : ℕ} {files : FileSystem} {log : List Record} {db : ShardedDatabase k}
    (hfile : files path = some (logBytes log)) (hsize : Loadable (logBytes log))
    (hload : load k hash path t files = (some (.ok ()), db)) :
    ReplayFits t clear log ∧
      view t.instant (db.toMap hash) = view t.instant (replay t clear log) := by
  have hfits : ReplayFits t clear log := by
    by_contra hn
    have hpanic := @load_log_panics k hash _ _ _ _ hfile hsize hn
    rw [hload] at hpanic
    cases hpanic
  obtain ⟨db', hdb', hs⟩ := @load_log k hash _ _ _ _ hfile hsize hfits
  cases hload.symm.trans hdb'
  exact ⟨hfits, hs.view_eq⟩

/-- A file that is loaded has nothing of its last record, or all of it. -/
theorem written_of_load {k : ℕ} {files : FileSystem} {log : List Record} {v : Visit} {r : Record}
    {db : ShardedDatabase k} (hr : v.record = some r)
    (hfile : files path = some (logBytes log ++ v.written))
    (hsize : Loadable (logBytes log ++ r.bytes))
    (hload : load k hash path t files = (some (.ok ()), db)) :
    v.written = [] ∨ v.written = r.bytes := by
  by_contra hn
  obtain ⟨hnil, htorn⟩ := not_or.mp hn
  have hrefused := @load_log_torn k hash _ t _ _ _ _ hfile hsize (written_isPrefix hr) htorn hnil
  rw [hload] at hrefused
  exact absurd (congrArg Prod.fst hrefused).symm (refused_ne_ok _)

/-- Behind a whole log, an append that leaves the log intact did no harm. -/
theorem Whole.harmless {k : ℕ} {vs : List Visit} {v : Visit} {files : FileSystem}
    (h : Whole t vs) (hfile : files path = some ((vs ++ [v]).map Visit.written).flatten)
    (hsize : Loadable (logBytes (allRecords (vs ++ [v]))))
    (hi : Intact k hash path t files (vs ++ [v])) :
    v.Harmless t (replay t clear (acceptedLog vs)) := by
  intro r hr
  obtain ⟨hfits, log, hbytes, hlog, hview⟩ := h
  obtain ⟨db, ref, hload, hload', hsame⟩ := hi
  obtain ⟨-, h₂⟩ := length_written_le (vs ++ [v])
  have h₁ := (length_written_le vs).1
  simp only [List.map_append, List.map_cons, List.map_nil, List.flatten_append, List.flatten_cons,
    List.flatten_nil, List.append_nil, hbytes] at hfile h₁
  rw [acceptedLog_append, hr] at hload' h₂
  have hlast : logBytes (allRecords (vs ++ [v])) = logBytes (allRecords vs) ++ r.bytes := by
    have hrec : v.record = some r := hr
    simp [allRecords, hrec]
  have hsize' : Loadable (logBytes log ++ r.bytes) := hsize.of_le (by
    rw [hlast, List.length_append, List.length_append]
    exact Nat.add_le_add_right h₁ _)
  have hwhole := written_of_load hr hfile hsize' hload
  have hsnoc : logBytes log ++ r.bytes = logBytes (log ++ [r]) := by simp
  cases hf : v.appendError with
  | none =>
    simp only [hf, Option.isNone_none, if_true, Option.toList_some] at hload' h₂ ⊢
    obtain ⟨hfits', href⟩ := fits_of_load (put_self files path _) (hsize.of_le h₂) hload'
    refine ⟨(replayFits_snoc.mp hfits').2, hwhole.symm.imp_right fun hnil => ⟨hnil, ?_⟩⟩
    rw [hnil, List.append_nil] at hfile
    obtain ⟨-, hdb⟩ := fits_of_load hfile (hsize'.of_le (by simp)) hload
    rw [replay_snoc] at href
    exact href.symm.trans (hsame.symm.trans (hdb.trans hview))
  | some error =>
    simp only [hf, Option.isNone_some, Bool.false_eq_true, if_false, Option.toList_none,
      List.append_nil] at hload' h₂ ⊢
    refine hwhole.imp_right fun hall => ?_
    rw [hall, hsnoc] at hfile
    obtain ⟨hfits', hdb⟩ := fits_of_load hfile (hsnoc ▸ hsize') hload
    obtain ⟨-, href⟩ := fits_of_load (put_self files path _) (hsize.of_le h₂) hload'
    refine ⟨hall, (DbOp.fits_congr hview r.op).mp (replayFits_snoc.mp hfits').2, ?_⟩
    rw [replay_snoc] at hdb
    rw [Record.Idle, ← DbOp.view_spec_congr hview r.op]
    exact hdb.symm.trans (hsame.trans href)

/-- After every request the log is intact, exactly when every append does no harm. -/
theorem intact_iff_harmless (k : ℕ) (hw : w.engineFile = some ⟨path⟩) (hf : w.files path = some [])
    (attempts : List Attempt) (hsize : Loadable (logBytes (allRecords (visitsOf none attempts)))) :
    (∀ pre, pre <+: attempts → Intact k hash path t
      (after hash toJson (visitsOf none pre) w).files (visitsOf none pre)) ↔
      ∀ pre a, pre ++ [a] <+: attempts → (a.visit (pendingAfter none pre)).Harmless t
        (replay t clear (acceptedLog (visitsOf none pre))) := by
  have hfile (vs : List Visit) : (after hash toJson vs w).files path =
      some (vs.map Visit.written).flatten := (after_files hw hf vs).2
  have hloadable {pre : List Attempt} (hp : pre <+: attempts) :
      Loadable (logBytes (allRecords (visitsOf none pre))) := hsize.pre (visitsOf_front hp)
  have hlast {pre : List Attempt} {a : Attempt} (hp : pre ++ [a] <+: attempts) : pre <+: attempts :=
    (List.prefix_append pre [a]).trans hp
  constructor
  · intro hall
    -- an intact log behind a whole one is whole again
    have hharmless {pre : List Attempt} {a : Attempt} (hp : pre ++ [a] <+: attempts)
        (hwhole : Whole t (visitsOf none pre)) : (a.visit (pendingAfter none pre)).Harmless t
          (replay t clear (acceptedLog (visitsOf none pre))) := by
      have hintact := hall _ hp
      have hl := hloadable hp
      rw [visitsOf_snoc] at hintact hl
      exact hwhole.harmless (hfile _) hl hintact
    have hwhole : ∀ pre, pre <+: attempts → Whole t (visitsOf none pre) := by
      intro pre
      induction pre using List.reverseRecOn with
      | nil => exact fun _ => whole_nil
      | append_singleton pre a ih =>
        intro hp
        rw [visitsOf_snoc]
        exact (ih (hlast hp)).append (hharmless hp (ih (hlast hp)))
    exact fun pre a hp => hharmless hp (hwhole pre (hlast hp))
  · intro hall pre
    suffices hwhole : pre <+: attempts → Whole t (visitsOf none pre) from
      fun hp => (hwhole hp).intact (hfile _) (hloadable hp)
    induction pre using List.reverseRecOn with
    | nil => exact fun _ => whole_nil
    | append_singleton pre a ih =>
      intro hp
      rw [visitsOf_snoc]
      exact (ih (hlast hp)).append (hall pre a hp)

end FailedAppends

section Sample

/-- `SET k v`, and what the disk does with its record. -/
def setAttempt (disk : DiskTurn) : Attempt :=
  ⟨⟨0, 0⟩, (Record.set "k" [118]).request loadable_set, disk⟩

def ioError : IoError := ⟨.other, "Input/output error (os error 5)"⟩

/-- The record is written, but the sync fails. -/
def unsynced : DiskTurn := ⟨none, some ioError⟩

/-- The disk takes nothing, which only the next write reports. -/
def lost : DiskTurn := ⟨some ⟨0, ioError, true⟩, none⟩

/-- The key is set, and set again three times to the same value: the second time the sync fails, the
third time the record is lost, and the fourth time the error of the third is returned. -/
def setAttempts : List Attempt :=
  [setAttempt ⟨none, none⟩, setAttempt unsynced, setAttempt lost, setAttempt ⟨none, none⟩]

theorem setAttempt_record (disk : DiskTurn) (pending : Option IoError) :
    ((setAttempt disk).visit pending).record = some (.set "k" [118]) :=
  Visit.record_ok (v := (setAttempt disk).visit pending) (fromResp_record (.set "k" [118]))

/-- Setting a key to the value that it has changes nothing. -/
theorem set_idle (t : Clock) (m : TimedMap String Bytes Instant) (r : Record)
    (hr : r = .set "k" [118]) : r.Idle t (r.op.spec t m).2 := by
  subst hr
  exact congrArg (view t.instant) (Function.update_idem ..)

theorem setAttempt_written (disk : DiskTurn) (pending : Option IoError) :
    ((setAttempt disk).visit pending).written =
      appended (disk.fault pending).1 (Record.set "k" [118]).bytes [] :=
  Visit.written_some (setAttempt_record disk pending)

theorem set_fits (t : Clock) (m : TimedMap String Bytes Instant) :
    (Record.set "k" [118]).op.Fits t m := by
  rintro _ ⟨⟩ _ ⟨⟩

theorem setAttempt_leaves (disk : DiskTurn) (pending : Option IoError) :
    (setAttempt disk).leaves pending = (disk.fault pending).2 := by
  rw [Attempt.leaves, setAttempt_record]
  rfl

/-- The first record sets the key, and the others change nothing. -/
theorem setAttempts_harmless (t : Clock) : ∀ pre a, pre ++ [a] <+: setAttempts →
    (a.visit (pendingAfter none pre)).Harmless t (replay t clear (acceptedLog (visitsOf none pre))) := by
  rintro pre a ⟨rest, heq⟩ r hr
  have hidle {m : TimedMap String Bytes Instant} := set_idle t m
  rcases pre with _ | ⟨a₁, _ | ⟨a₂, _ | ⟨a₃, _ | ⟨a₄, pre⟩⟩⟩⟩ <;>
    simp only [setAttempts, List.cons_append, List.nil_append, List.cons.injEq] at heq
  · obtain ⟨rfl, -⟩ := heq
    cases (setAttempt_record _ _).symm.trans hr
    exact ⟨set_fits t _, .inl (setAttempt_written _ _)⟩
  · obtain ⟨rfl, rfl, -⟩ := heq
    cases (setAttempt_record _ _).symm.trans hr
    simp only [pendingAfter, List.foldl_cons, List.foldl_nil, setAttempt_leaves, visitsOf, acceptedLog,
      List.filterMap_cons, List.filterMap_nil, setAttempt_record]
    exact .inr ⟨setAttempt_written unsynced none, set_fits t _, hidle _ rfl⟩
  · obtain ⟨rfl, rfl, rfl, -⟩ := heq
    cases (setAttempt_record _ _).symm.trans hr
    simp only [pendingAfter, List.foldl_cons, List.foldl_nil, setAttempt_leaves, visitsOf, acceptedLog,
      List.filterMap_cons, List.filterMap_nil, setAttempt_record]
    exact ⟨set_fits t _, .inr ⟨setAttempt_written lost none, hidle _ rfl⟩⟩
  · obtain ⟨rfl, rfl, rfl, rfl, -⟩ := heq
    simp only [pendingAfter, List.foldl_cons, List.foldl_nil, setAttempt_leaves]
    exact .inl (Attempt.visit_pending _ ioError).2
  · simp at heq

theorem setAttempts_loadable : Loadable (logBytes (allRecords (visitsOf none setAttempts))) := by
  have hrecords : allRecords (visitsOf none setAttempts) = List.replicate 4 (.set "k" [118]) := by
    simp [allRecords, setAttempts, visitsOf, setAttempt_record]
  rw [hrecords]
  unfold Loadable
  decide +kernel

/-- Two of the requests are answered with an error, and after each of them the log is intact. -/
theorem intact_iff_harmless_set :
    (visitsOf none setAttempts).map Visit.appendError = [none, some ioError, none, some ioError] ∧
    setAttempts.inits.Forall fun pre => Intact 0 (fun _ => 0) samplePath ⟨1, 1⟩
      (World.after (fun _ => 0) (fun _ => .ok "{}") (visitsOf none pre)
        (World.fresh 0 samplePath)).files (visitsOf none pre) := by
  refine ⟨?_, List.forall_iff_forall_mem.mpr fun pre hp => ?_⟩
  · simp only [setAttempts, visitsOf, setAttempt_leaves]
    rfl
  · exact (intact_iff_harmless 0 rfl rfl setAttempts setAttempts_loadable).mpr
      (setAttempts_harmless ⟨1, 1⟩) pre ((List.mem_inits ..).mp hp)

/-- The sync fails and the request is answered with an error, but the next start-up sets the key. -/
theorem unsynced_not_intact : ¬ ∀ (attempts : List Attempt) (t : Clock),
    Loadable (logBytes (allRecords (visitsOf none attempts))) →
    (∀ v ∈ visitsOf none attempts, ∀ r ∈ v.record, v.appendError = none → v.written = r.bytes) →
    Intact 0 (fun _ => 0) samplePath t
      (World.after (fun _ => 0) (fun _ => .ok "{}") (visitsOf none attempts)
        (World.fresh 0 samplePath)).files (visitsOf none attempts) := by
  intro hall
  have hrecords : allRecords (visitsOf none [setAttempt unsynced]) = [.set "k" [118]] := by
    simp [allRecords, visitsOf, setAttempt_record]
  have hsize : Loadable (logBytes (allRecords (visitsOf none [setAttempt unsynced]))) := by
    rw [hrecords, logBytes_cons, logBytes_nil, List.append_nil]
    exact loadable_set
  have hintact := hall [setAttempt unsynced] ⟨1, 1⟩ hsize (by
    rintro v hv r - herror
    rw [List.mem_singleton.mp hv] at herror
    cases herror)
  have hfile := (@after_files _ (fun _ => 0) (fun _ => .ok "{}") _ (World.fresh 0 samplePath)
    rfl _ rfl (visitsOf none [setAttempt unsynced])).2
  have hharmless : ((setAttempt unsynced).visit none).Harmless ⟨1, 1⟩
      (replay ⟨1, 1⟩ clear (acceptedLog [])) := whole_nil.harmless hfile hsize hintact
  rcases hharmless _ (setAttempt_record unsynced none) with hnil | ⟨-, -, hidle⟩
  · exact Record.bytes_ne_nil _ ((setAttempt_written unsynced none).symm.trans hnil)
  · have hk := congrFun hidle "k"
    cases hk

end Sample

end RustKV

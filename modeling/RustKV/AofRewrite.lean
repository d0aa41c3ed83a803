import RustKV.AofRuns

/-! Rewriting the log and a crash on the way. Wherever the rewrite is stopped, the path of
the log names the old file or the new one, except between the two renames, where it names
none; a restart takes a missing file for an empty log. -/
namespace RustKV
open Decimal TimedMap

/-- The record of a snapshot entry. -/
def Record.ofEntry (entry : DbSnapshotEntry) : Record :=
  match entry.expireAtMs with
  | some ts => .setPxAt entry.key entry.value ts
  | none => .set entry.key entry.value

/-- The contents of the rewritten file. -/
def rewritten (snapshot : DbSnapshot) : Bytes := logBytes (snapshot.entries.map Record.ofEntry)

theorem snapshotEntryToRespBytes_ofEntry (c : Clock) (entry : DbSnapshotEntry) :
    snapshotEntryToRespBytes c entry = (Record.ofEntry entry).bytes := by
  rw [snapshotEntryToRespBytes_eq, Record.ofEntry]
  cases entry.expireAtMs <;> rfl

section Paths
variable {path : Path}

theorem withFileName_ne {suffix : String} (hs : 0 < suffix.length) :
    path.withFileName (path.fileName.getD "rustkv.aof" ++ suffix) ≠ path := by
  intro h
  have hname := congrArg Path.fileName h
  cases hf : path.fileName with
  | none => simp [Path.withFileName, hf] at hname
  | some name =>
    have hlen : (name ++ suffix).length = name.length :=
      congrArg String.length (by simpa only [Path.withFileName, hf, Option.getD_some,
        Option.some.injEq] using hname)
    rw [String.length_append] at hlen
    omega

theorem rewriteTempPath_ne : rewriteTempPath path ≠ path := withFileName_ne (by decide)

theorem rewriteBackupPath_ne : rewriteBackupPath path ≠ path := withFileName_ne (by decide)

theorem rewriteTempPath_ne_backup : rewriteTempPath path ≠ rewriteBackupPath path := by
  intro h
  have hlen := congrArg String.length (Option.some.inj (congrArg Path.fileName h))
  rw [String.length_append, String.length_append] at hlen
  exact absurd (Nat.add_left_cancel hlen) (by decide)

end Paths

section Steps
open World FileSystem
variable {n : ℕ} {c : Clock} {I : ℕ → FileSystem → Prop} {P : FileSystem → Prop} {w : World n}
  {path : Path}

/-- Run alone and without a fault, the program returns `a` in `w'` after `k` actions, and wherever
it is stopped the files satisfy `P`. -/
abbrev Leaves (c : Clock) (P : FileSystem → Prop) {α : Type} (p : ServerM n α) (w : World n) (k : ℕ)
    (a : α) (w' : World n) : Prop := Prog.Passes (exec c none) (fun _ w => P w.files) p w k a w'

/-- The same, where the files satisfy `I j` when the program is stopped after `j` actions. -/
abbrev LeavesAt (c : Clock) (I : ℕ → FileSystem → Prop) {α : Type} (p : ServerM n α) (w : World n)
    (k : ℕ) (a : α) (w' : World n) : Prop :=
  Prog.Passes (exec c none) (fun j w => I j w.files) p w k a w'

variable {I : ℕ → FileSystem → Prop} {k k' l : ℕ}

theorem Leaves.at {α : Type} {p : ServerM n α} {a : α} {w' : World n} (hp : Leaves c P p w k a w')
    (hI : ∀ j ≤ k, ∀ files, P files → I j files) : LeavesAt c I p w k a w' :=
  hp.mono fun j hj w => hI j hj w.files

theorem leavesAt_onFile {a : FileAct} {r : a.Answer} {files : FileSystem}
    (ha : FileSystem.exec a w.files = (r, files)) (h : I 0 w.files) (h' : I 1 files) :
    LeavesAt c I (ServerM.onFile a) w 1 r (w.withFiles files) := by
  have hexec : FileSystem.execFaulty none a w.files = FileSystem.exec a w.files := by
    cases a <;> rfl
  refine Prog.passes_perform (a := ServerAct.file a) ?_ h h'
  rw [World.exec, hexec, ha]
  rfl

theorem leaves_onFile {a : FileAct} {r : a.Answer} {files : FileSystem}
    (ha : FileSystem.exec a w.files = (r, files)) (h : P w.files) (h' : P files) :
    Leaves c P (ServerM.onFile a) w 1 r (w.withFiles files) := leavesAt_onFile ha h h'

theorem leavesAt_andThen {α β : Type} {p : ServerM n (IoResult α)}
    {f : α → ServerM n (IoResult β)} {a : α} {b : IoResult β} {w' w'' : World n}
    (hp : LeavesAt c I p w k (.ok a) w') (hf : LeavesAt c (fun j => I (k + j)) (f a) w' k' b w'')
    (hl : k + k' = l) : LeavesAt c I (ServerM.andThen p f) w l b w'' := hp.bind hf hl

theorem leaves_andThen {α β : Type} {p : ServerM n (IoResult α)}
    {f : α → ServerM n (IoResult β)} {a : α} {b : IoResult β} {w' w'' : World n}
    (hp : Leaves c P p w k (.ok a) w') (hf : Leaves c P (f a) w' k' b w'') (hl : k + k' = l) :
    Leaves c P (ServerM.andThen p f) w l b w'' := hp.bind hf hl

theorem leaves_now (h : P w.files) : Leaves c P ServerM.now w 1 c w :=
  ⟨rfl, rfl, fun j _ => by rcases j with _ | _ | j <;> exact h⟩

theorem leaves_setEngineFile (file : Option File) (h : P w.files) :
    Leaves c P (ServerM.setEngineFile file) w 1 () { w with engineFile := file } :=
  Prog.passes_perform (h := exec c none) (a := ServerAct.setEngineFile file) rfl h h

theorem leaves_flush (hw : w.engineFile = some ⟨path⟩) (h : P w.files) :
    Leaves c P AofEngine.flush w 3 (.ok ()) w := by
  have hengine : Leaves c P ServerM.engineFile w 1 (some ⟨path⟩) w :=
    Prog.passes_perform (h := exec c none) (a := ServerAct.engineFile)
      (congrArg (fun f => (some f, w)) hw) h h
  have hfile : Leaves c P AofEngine.fileMut w 1 (.ok ⟨path⟩) w :=
    hengine.bind (Prog.passes_pure h) rfl
  exact leaves_andThen hfile (leaves_andThen (leaves_onFile (a := .flush ⟨path⟩) rfl h h)
    (leaves_onFile (a := .syncAll ⟨path⟩) rfl h h) rfl) rfl

theorem delete_of_missing {files : FileSystem} (h : files path = none) : files.delete path = files := by
  rw [FileSystem.delete, ← h, Function.update_eq_self]

theorem leaves_removeFileIfExists (h : P w.files) (h' : P (w.files.delete path)) :
    Leaves c P (removeFileIfExists path) w 1 (.ok ()) (w.withFiles (w.files.delete path)) := by
  cases hf : w.files path with
  | none =>
    rw [delete_of_missing hf]
    exact (leaves_onFile (a := .removeFile path) (r := .error notFound)
      (by simp [FileSystem.exec, hf]) h h).bind (Prog.passes_pure h) rfl
  | some bytes =>
    exact (leaves_onFile (a := .removeFile path) (r := .ok ())
      (by simp [FileSystem.exec, hf]) h h').bind (Prog.passes_pure h') rfl

theorem put_put (files : FileSystem) (path : Path) (bytes bytes' : Bytes) :
    (files.put path bytes).put path bytes' = files.put path bytes' := Function.update_idem ..

/-- The entries are written to the file one after the other. -/
theorem leaves_writeEntries (files : FileSystem) (content : Bytes)
    (hP : ∀ bytes, P (files.put path bytes)) (entries : List DbSnapshotEntry) :
    Leaves c P (writeEntries ⟨path⟩ entries) (w.withFiles (files.put path content))
      (2 * entries.length) (.ok ())
      (w.withFiles (files.put path (content ++ logBytes (entries.map Record.ofEntry)))) := by
  induction entries generalizing content with
  | nil =>
    rw [List.map_nil, logBytes_nil, List.append_nil]
    exact Prog.passes_pure (hP content)
  | cons entry entries ih =>
    have hexec : FileSystem.exec (.writeAll ⟨path⟩ (snapshotEntryToRespBytes c entry))
        (files.put path content) =
          (.ok (), files.put path (content ++ (Record.ofEntry entry).bytes)) := by
      rw [FileSystem.exec, put_self, Option.getD_some, put_put,
        snapshotEntryToRespBytes_ofEntry]
    have hrest := ih (content ++ (Record.ofEntry entry).bytes)
    rw [List.append_assoc] at hrest
    refine (leaves_now (hP content)).bind
      (leaves_andThen (leaves_onFile hexec (hP _) (hP _)) hrest rfl) ?_
    rw [List.length_cons]
    omega

theorem leaves_writeRewriteFile (snapshot : DbSnapshot) (h : P w.files)
    (hP : ∀ bytes, P (w.files.put path bytes)) :
    Leaves c P (writeRewriteFile path snapshot) w (2 * snapshot.entries.length + 3) (.ok ())
      (w.withFiles (w.files.put path (rewritten snapshot))) := by
  refine leaves_andThen (leaves_onFile (a := .openTruncate path) rfl h (hP [])) ?_
    (Nat.add_comm 1 (2 * snapshot.entries.length + 2))
  refine leaves_andThen (leaves_writeEntries w.files [] hP snapshot.entries) ?_ rfl
  exact leaves_andThen (leaves_onFile (a := .flush ⟨path⟩) rfl (hP _) (hP _))
    (leaves_onFile (a := .syncAll ⟨path⟩) rfl (hP _) (hP _)) rfl

/-- The files after the renaming of a file that may be missing. -/
def renamed (path target : Path) (files : FileSystem) : FileSystem :=
  (files path).elim files fun bytes => (files.delete path).put target bytes

theorem leavesAt_renameFileIfExists {target : Path} (h : I 0 w.files)
    (h' : I 1 (renamed path target w.files)) :
    LeavesAt c I (renameFileIfExists path target) w 1 (.ok (w.files path).isSome)
      (w.withFiles (renamed path target w.files)) := by
  unfold renamed at h' ⊢
  cases hf : w.files path with
  | none =>
    rw [hf] at h'
    exact (leavesAt_onFile (a := .rename path target) (r := .error notFound)
      (by simp [FileSystem.exec, hf]) h h').bind (Prog.passes_pure h') rfl
  | some bytes =>
    rw [hf] at h'
    exact (leavesAt_onFile (a := .rename path target) (r := .ok ())
      (by simp [FileSystem.exec, hf]) h h').bind (Prog.passes_pure h') rfl

/-- On the way from the old file to the new one: before the action `k` the path of the log names
the old file, right after it no file, and from then on the new file. -/
def Replacing (path : Path) (old : Option Bytes) (new : Bytes) (k j : ℕ) (files : FileSystem) :
    Prop :=
  files path = if j < k then old else if j = k then none else some new

variable {old : Option Bytes} {new : Bytes} {files : FileSystem} {j : ℕ}

theorem replacing_before (hj : j < k) (h : files path = old) : Replacing path old new k j files := by
  rw [Replacing, if_pos hj, h]

theorem replacing_between (h : files path = none) : Replacing path old new k k files := by
  rw [Replacing, if_neg (Nat.lt_irrefl k), if_pos rfl, h]

theorem replacing_after (hj : k < j) (h : files path = some new) :
    Replacing path old new k j files := by
  rw [Replacing, if_neg (Nat.lt_asymm hj), if_neg hj.ne', h]

/-- The same, where both actions are counted from an earlier one. -/
theorem Replacing.later {j' l : ℕ} (h : Replacing path old new k j files) (hj : j' + k = l + j) :
    Replacing path old new l j' files := by
  have hlt : j' < l ↔ j < k := by omega
  have heq : j' = l ↔ j = k := by omega
  simpa only [Replacing, hlt, heq] using h

theorem put_at_ne {target : Path} (h : target ≠ path) (bytes : Bytes) :
    files.put target bytes path = files path := Function.update_of_ne h.symm ..

theorem delete_at_ne {target : Path} (h : target ≠ path) :
    files.delete target path = files path := Function.update_of_ne h.symm ..

theorem delete_self : files.delete path path = none := Function.update_self ..

theorem renamed_self {target : Path} (h : target ≠ path) : renamed path target files path = none := by
  unfold renamed
  cases hf : files path with
  | none => exact hf
  | some bytes => exact (put_at_ne h bytes).trans delete_self

theorem renamed_at_ne {target other : Path} (h : target ≠ other) (h' : path ≠ other) :
    renamed path target files other = files other := by
  unfold renamed
  cases files path with
  | none => rfl
  | some bytes => exact (put_at_ne h bytes).trans (delete_at_ne h')

/-- The second action renames the old file, the third one the new file. -/
theorem leavesAt_replaceAofFile {temp backup : Path} (htemp : temp ≠ path) (hbackup : backup ≠ path)
    (hne : temp ≠ backup) (hf : w.files path = old) (hnew : w.files temp = some new) :
    ∃ k files, 2 < k ∧ LeavesAt c (Replacing path old new 2) (replaceAofFile path temp backup) w k
      (.ok ()) (w.withFiles files) ∧ files path = some new := by
  have hf₁ : w.files.delete backup path = old := (delete_at_ne hbackup).trans hf
  have hremove : LeavesAt c (Replacing path old new 2) (removeFileIfExists backup) w 1 (.ok ())
      (w.withFiles (w.files.delete backup)) :=
    (leaves_removeFileIfExists (P := fun files => files path = old) hf hf₁).at
      fun j hj _ h => replacing_before (by omega) h
  set files := renamed path backup (w.files.delete backup)
  have hmissing : files path = none := renamed_self hbackup
  have hrename : LeavesAt c (fun j => Replacing path old new 2 (1 + j))
      (renameFileIfExists path backup) (w.withFiles (w.files.delete backup)) 1
      (.ok ((w.withFiles (w.files.delete backup)).files path).isSome)
      ((w.withFiles (w.files.delete backup)).withFiles files) :=
    leavesAt_renameFileIfExists (replacing_before (by decide) hf₁) (replacing_between hmissing)
  have htempNew : files temp = some new :=
    (renamed_at_ne hne.symm htemp.symm).trans ((delete_at_ne hne.symm).trans hnew)
  have hfinal := put_self (files.delete temp) path new
  have hswap := leavesAt_onFile (c := c) (w := w.withFiles files) (a := .rename temp path)
    (r := .ok ()) (I := fun j => Replacing path old new 2 (1 + (1 + j)))
    (by simp [FileSystem.exec, show (w.withFiles files).files = files from rfl, htempNew])
    (replacing_between hmissing) (replacing_after (by decide) hfinal)
  generalize ((w.withFiles (w.files.delete backup)).files path).isSome = backedUp at hrename
  cases backedUp with
  | false =>
    exact ⟨3, _, by decide, leavesAt_andThen hremove (leavesAt_andThen hrename
      (hswap.bind (Prog.passes_pure (replacing_after (by decide) hfinal)) rfl) rfl) rfl, hfinal⟩
  | true =>
    have hfinal' : ((files.delete temp).put path new).delete backup path = some new :=
      (delete_at_ne hbackup).trans hfinal
    have hclean := (leaves_removeFileIfExists (c := c) (P := fun files => files path = some new)
      (w := (w.withFiles files).withFiles ((files.delete temp).put path new)) hfinal hfinal').at
      (I := fun j => Replacing path old new 2 (1 + (1 + (1 + j))))
      fun j _ _ h => replacing_after (by omega) h
    exact ⟨4, _, by decide, leavesAt_andThen hremove (leavesAt_andThen hrename
      (hswap.bind hclean rfl) rfl) rfl, hfinal'⟩

/-- The action of a rewrite that renames the log. Before it come the removal of a leftover new file,
three actions and two for each entry (the clock is read, the record written) for the new file,
three to flush the log, one to close it, and the removal of a leftover backup. -/
def renamingAt (snapshot : DbSnapshot) : ℕ := 2 * snapshot.entries.length + 10

/-- Stopped before the log is renamed, a rewrite leaves the old file at its path, between the two
renames no file, and after them the new file. -/
theorem rewrite_replacing (hw : w.engineFile = some ⟨path⟩) (snapshot : DbSnapshot) :
    ∃ k w', renamingAt snapshot < k ∧
      LeavesAt c (Replacing path (w.files path) (rewritten snapshot) (renamingAt snapshot))
        (AofEngine.rewrite path snapshot) w k (.ok ()) w' ∧
      w'.files path = some (rewritten snapshot) := by
  have htemp : rewriteTempPath path ≠ path := rewriteTempPath_ne
  have h₁ : w.files.delete (rewriteTempPath path) path = w.files path := delete_at_ne htemp
  have hput (bytes : Bytes) : (w.files.delete (rewriteTempPath path)).put (rewriteTempPath path)
      bytes path = w.files path := (put_at_ne htemp bytes).trans h₁
  -- `files` when the new file is complete, and `files'` when it has taken the place of the old one
  have hwritten := put_self (w.files.delete (rewriteTempPath path)) (rewriteTempPath path)
    (rewritten snapshot)
  set files := (w.files.delete (rewriteTempPath path)).put (rewriteTempPath path) (rewritten snapshot)
  have hpath : files path = w.files path := hput (rewritten snapshot)
  obtain ⟨k, files', hk, hreplace, hnew⟩ := leavesAt_replaceAofFile (c := c)
    (w := { w.withFiles files with engineFile := none }) htemp rewriteBackupPath_ne
    rewriteTempPath_ne_backup hpath hwritten
  have hreopened : files'.put path ((files' path).getD []) path = some (rewritten snapshot) := by
    rw [put_self, hnew]
    rfl
  have hcount : renamingAt snapshot = 2 * snapshot.entries.length + 10 := rfl
  -- the parts of the rewrite before the replacement, then those after it
  have hremove : Leaves c (fun files => files path = w.files path)
      (removeFileIfExists (rewriteTempPath path)) w 1 (.ok ())
      (w.withFiles (w.files.delete (rewriteTempPath path))) := leaves_removeFileIfExists rfl h₁
  have hwrite := leaves_writeRewriteFile (c := c) (P := fun files => files path = w.files path)
    (w := w.withFiles (w.files.delete (rewriteTempPath path))) snapshot h₁ hput
  have hflush := leaves_flush (c := c) (P := fun files => files path = w.files path)
    (w := w.withFiles files) hw hpath
  have hclose := leaves_setEngineFile (c := c) (P := fun files => files path = w.files path)
    (w := w.withFiles files) none hpath
  have hopen := leaves_onFile (c := c) (P := fun files => files path = some (rewritten snapshot))
    (w := { w.withFiles files' with engineFile := none }) (a := .openAppend path) rfl hnew hreopened
  have hset := leaves_setEngineFile (c := c) (P := fun files => files path = some (rewritten snapshot))
    (w := ({ w.withFiles files' with engineFile := none } : World n).withFiles
      (files'.put path ((files' path).getD []))) (some ⟨path⟩) hreopened
  have hbefore {files : FileSystem} {j : ℕ} (hj : j < renamingAt snapshot)
      (h : files path = w.files path) :
      Replacing path (w.files path) (rewritten snapshot) (renamingAt snapshot) j files :=
    replacing_before hj h
  have hafter {files : FileSystem} {j : ℕ} (hj : renamingAt snapshot < j)
      (h : files path = some (rewritten snapshot)) :
      Replacing path (w.files path) (rewritten snapshot) (renamingAt snapshot) j files :=
    replacing_after hj h
  refine ⟨2 * snapshot.entries.length + (k + 10), _, by omega,
    leavesAt_andThen (hremove.at fun j hj _ => hbefore (by omega))
      (leavesAt_andThen (hwrite.at fun j hj _ => hbefore (by omega))
        (leavesAt_andThen (hflush.at fun j hj _ => hbefore (by omega))
          ((hclose.at fun j hj _ => hbefore (by omega)).bind
            ((hreplace.mono fun j _ _ h => h.later (by omega)).bind
              ((hopen.at fun j _ _ => hafter (by omega)).bind
                ((hset.at fun j _ _ => hafter (by omega)).bind
                  (Prog.passes_pure (hafter (by omega) hreopened)) rfl) rfl) rfl) rfl) rfl) rfl)
      (by omega), hreopened⟩

end Steps

section Restored
open World ServerM
variable {n k : ℕ} {hash : String → UInt64} {path : Path} {c t : Clock}
  {m : TimedMap String Bytes Instant} {files files' : FileSystem}

/-- The same keys are alive, with the same values. -/
def SameValues (t : Clock) (m m' : TimedMap String Bytes Instant) : Prop :=
  ∀ key, (view t.instant m key).map Timed.value = (view t.instant m' key).map Timed.value

/-- A start-up at the time `t` succeeds and leaves the keys and values of `m`. -/
def Restores (k : ℕ) (hash : String → UInt64) (path : Path) (t : Clock) (files : FileSystem)
    (m : TimedMap String Bytes Instant) : Prop :=
  ∃ w' : World k, (startUp hash path).run (exec t none)
      (World.restarted files (ServerStats.new t)) = (some (.ok ()), w') ∧
    SameValues t (w'.kv.db.toMap hash) m

/-- The timestamp lies ahead in whole milliseconds, and its deadline fits in an `Instant`. -/
def Ahead (t : Clock) (ts : UInt64) : Prop :=
  ∃ d, durationUntilUnixMs t ts = some d ∧ t.after d < instantLimit

/-- Opening the log for appending succeeds whatever the load has left. -/
theorem restores_iff : Restores k hash path t files m ↔
    ∃ db, load k hash path t files = (some (.ok ()), db) ∧ SameValues t (db.toMap hash) m := by
  have hnew (w : World k) : ∃ w', (AofEngine.new path).run (exec t none) w = (some (.ok ()), w') ∧
      w'.kv = w.kv := ⟨_, rfl, rfl⟩
  rw [Restores, startUp, load]
  rcases hrun : (AofEngine.loadAndReplay hash path).run (exec t none)
    (World.restarted (n := k) files (ServerStats.new t)) with ⟨_ | error | ⟨⟩, w⟩
  · simp [run_andThen_panic hrun]
  · simp [run_andThen_error hrun]
  · obtain ⟨w', hrun', hkv⟩ := hnew w
    simp [run_andThen_ok hrun, hrun', hkv]

/-- Replaying touches no file. -/
theorem run_replayRest_withFiles (fuel : ℕ) (rest : Bytes) (w : World n) :
    (replayRest hash fuel rest).run (exec c none) (w.withFiles files) =
      (((replayRest hash fuel rest).run (exec c none) w).1,
        ((replayRest hash fuel rest).run (exec c none) w).2.withFiles files) := by
  induction fuel generalizing rest w with
  | zero => rfl
  | succ fuel ih =>
    rw [replayRest]
    split_ifs
    · rfl
    split
    · rfl
    · rfl
    split
    · rfl
    rename_i cmd _
    simp only [andThen, Prog.run_bind, run_onDb]
    rw [show (w.withFiles files).kv.db = w.kv.db from rfl]
    rcases (replayCommand hash cmd).run (ShardedDatabase.exec c) w.kv.db with ⟨_ | error | ⟨⟩, db⟩
    · rfl
    · rfl
    · exact ih _ (w.withDb db)

/-- A load looks at nothing but the file at the path. -/
theorem load_congr (h : files path = files' path) :
    load n hash path t files = load n hash path t files' := by
  have hworld (files : FileSystem) : World.restarted (n := n) files (ServerStats.new t) =
      (World.restarted files' (ServerStats.new t)).withFiles files := rfl
  cases hf : files' path with
  | none =>
    rw [load, load, loadAndReplay_missing (h.trans hf), loadAndReplay_missing hf]
    rfl
  | some bytes =>
    rw [load, load, loadAndReplay_present (h.trans hf), loadAndReplay_present hf, hworld files,
      run_replayRest_withFiles]
    rfl

theorem load_missing (h : files path = none) :
    load n hash path t files = (some (.ok ()), ShardedDatabase.new n) := by
  rw [load, loadAndReplay_missing h]
  rfl

theorem restores_missing (h : files path = none) :
    Restores k hash path t files m ↔ ∀ key, view t.instant m key = none := by
  have hnew : view t.instant ((ShardedDatabase.new k).toMap hash) = clear :=
    (simulates_new (c := t)).view_eq
  simp [restores_iff, load_missing h, SameValues, hnew, clear, eq_comm]

end Restored

section Snapshots
variable {k : ℕ} {hash : String → UInt64} {path : Path} {c t : Clock}
  {m : TimedMap String Bytes Instant} {entries : List DbSnapshotEntry}

/-- What a replay makes of a snapshot entry. -/
def DbSnapshotEntry.restored (t : Clock) (e : DbSnapshotEntry) : Option Entry :=
  match e.expireAtMs with
  | some ts => (durationUntilUnixMs t ts).map fun d => ⟨e.value, some (t.after d)⟩
  | none => some ⟨e.value, none⟩

theorem spec_ofEntry (e : DbSnapshotEntry) :
    ((Record.ofEntry e).op.spec t m).2 = Function.update m e.key (e.restored t) := by
  rw [Record.ofEntry, DbSnapshotEntry.restored]
  cases e.expireAtMs <;> rfl

theorem fits_ofEntry (e : DbSnapshotEntry) : (Record.ofEntry e).op.Fits t m ↔
    ∀ ts ∈ e.expireAtMs, ∀ d ∈ durationUntilUnixMs t ts, t.after d < instantLimit := by
  rw [Record.ofEntry]
  cases e.expireAtMs with
  | none => simp [Record.op, DbOp.Fits, DbOp.keyOp, KeyOp.Fits, KeyOp.deadline]
  | some ts => simp [Record.op, DbOp.Fits, DbOp.keyOp, KeyOp.Fits, KeyOp.deadline]

theorem replayFits_entries : ReplayFits t m (entries.map Record.ofEntry) ↔ ∀ e ∈ entries,
    ∀ ts ∈ e.expireAtMs, ∀ d ∈ durationUntilUnixMs t ts, t.after d < instantLimit := by
  induction entries generalizing m with
  | nil => simp [ReplayFits]
  | cons e entries ih => rw [List.map_cons, ReplayFits, fits_ofEntry, ih, List.forall_mem_cons]

theorem replay_entries_of_ne {key : String} (h : ∀ e ∈ entries, e.key ≠ key) :
    replay t m (entries.map Record.ofEntry) key = m key := by
  induction entries generalizing m with
  | nil => rfl
  | cons e entries ih =>
    obtain ⟨he, hentries⟩ := List.forall_mem_cons.mp h
    exact (ih hentries).trans
      ((congrFun (spec_ofEntry e) key).trans (Function.update_of_ne he.symm ..))

/-- Under the key of an entry, a replay leaves what it makes of the entry. -/
theorem replay_entries_of_mem (h : entries.Pairwise fun left right => left.key < right.key)
    {e : DbSnapshotEntry} (he : e ∈ entries) :
    replay t m (entries.map Record.ofEntry) e.key = e.restored t := by
  induction entries generalizing m with
  | nil => cases he
  | cons e' entries ih =>
    obtain ⟨hlt, hentries⟩ := List.pairwise_cons.mp h
    rcases List.mem_cons.mp he with rfl | he
    · exact (replay_entries_of_ne fun e' he' => (hlt e' he').ne').trans
        ((congrFun (spec_ofEntry e) e.key).trans (Function.update_self ..))
    · exact ih hentries he

theorem durationUntilUnixMs_pos {ts : UInt64} {d : Duration} (h : durationUntilUnixMs t ts = some d) :
    0 < d := by
  have h0 : 0 ≤ t.unix := by
    by_contra hneg
    simp [durationUntilUnixMs, Clock.sinceEpoch, hneg] at h
  rw [durationUntilUnixMs_eq t h0] at h
  split_ifs at h with hts
  cases h
  exact Nat.mul_pos (Nat.sub_pos_of_lt (not_le.mp hts)) (by decide)

theorem alive_restored {e : DbSnapshotEntry} {entry : Entry} (h : e.restored t = some entry) :
    alive t.instant entry := by
  rw [DbSnapshotEntry.restored] at h
  cases hts : e.expireAtMs with
  | none =>
    rw [hts] at h
    cases h
    rfl
  | some ts =>
    rw [hts] at h
    obtain ⟨d, hd, rfl⟩ := Option.map_eq_some_iff.mp h
    rw [alive_iff]
    rintro _ ⟨⟩
    exact lt_add_of_pos_right t.instant (Int.natCast_pos.mpr (durationUntilUnixMs_pos hd))

theorem value_restored {e : DbSnapshotEntry} {entry : Entry} (h : e.restored t = some entry) :
    entry.value = e.value := by
  rw [DbSnapshotEntry.restored] at h
  cases hts : e.expireAtMs with
  | none =>
    rw [hts] at h
    cases h
    rfl
  | some ts =>
    rw [hts] at h
    obtain ⟨d, -, rfl⟩ := Option.map_eq_some_iff.mp h
    rfl

theorem view_eq_of_ahead (hct : c.instant ≤ t.instant)
    (halive : ∀ key e, view c.instant m key = some e → alive t.instant e) (key : String) :
    view t.instant m key = view c.instant m key := by
  rw [← view_view hct m, view_apply]
  cases hkey : view c.instant m key with
  | none => rfl
  | some e => exact Option.filter_eq_some_iff.mpr ⟨rfl, halive key e hkey⟩

/-- The rewritten file restores the database that the snapshot was taken from, exactly when
every timestamp of the snapshot lies ahead. -/
theorem restores_rewritten {files : FileSystem} {snapshot : DbSnapshot}
    (hsnap : ShardedDatabase.SnapshotOf c m snapshot.entries) (hct : c.instant ≤ t.instant)
    (halive : ∀ key e, view c.instant m key = some e → alive t.instant e)
    (hsize : Loadable (rewritten snapshot)) (hfile : files path = some (rewritten snapshot)) :
    Restores k hash path t files m ↔
      ∀ e ∈ snapshot.entries, ∀ ts ∈ e.expireAtMs, Ahead t ts := by
  have hview := view_eq_of_ahead hct halive
  rw [restores_iff]
  constructor
  · rintro ⟨db, hload, hsame⟩ e he ts hts
    by_cases hfits : ReplayFits t clear (snapshot.entries.map Record.ofEntry)
    · -- the key of the entry is alive in memory, so the replay must have kept it
      obtain ⟨db', hload', hs⟩ := load_log (n := k) hfile hsize hfits
      cases hload.symm.trans hload'
      obtain ⟨entry, hentry, -⟩ := (hsnap.mem_iff e).mp he
      have hkey := hsame e.key
      rw [hview, hentry, hs.view_eq, view_apply, replay_entries_of_mem hsnap.ascending he,
        DbSnapshotEntry.restored, show e.expireAtMs = some ts from hts] at hkey
      cases hd : durationUntilUnixMs t ts with
      | none => simp [hd] at hkey
      | some d => exact ⟨d, hd, replayFits_entries.mp hfits e he ts hts d hd⟩
    · have hpanic := @load_log_panics k hash _ _ _ _ hfile hsize hfits
      rw [hload] at hpanic
      cases hpanic
  · intro hall
    have hfits : ReplayFits t clear (snapshot.entries.map Record.ofEntry) := by
      refine replayFits_entries.mpr fun e he ts hts d hd => ?_
      obtain ⟨d', hd', hlt⟩ := hall e he ts hts
      cases hd.symm.trans hd'
      exact hlt
    obtain ⟨db, hload, hs⟩ := load_log (n := k) hfile hsize hfits
    refine ⟨db, hload, fun key => ?_⟩
    rw [hs.view_eq, hview]
    cases hkey : view c.instant m key with
    | none =>
      have hne : ∀ e ∈ snapshot.entries, e.key ≠ key := by
        rintro e he rfl
        obtain ⟨entry, hentry, -⟩ := (hsnap.mem_iff e).mp he
        rw [hkey] at hentry
        cases hentry
      rw [view_apply, replay_entries_of_ne hne]
      rfl
    | some entry =>
      have he := (hsnap.mem_iff (snapshotEntry c key entry)).mpr ⟨entry, hkey, rfl⟩
      have hsome : ∃ entry', (snapshotEntry c key entry).restored t = some entry' := by
        rw [DbSnapshotEntry.restored]
        cases hts : (snapshotEntry c key entry).expireAtMs with
        | none => exact ⟨_, rfl⟩
        | some ts =>
          obtain ⟨d, hd, -⟩ := hall _ he ts hts
          exact ⟨_, congrArg (Option.map _) hd⟩
      obtain ⟨entry', hrestored⟩ := hsome
      have hreplay := replay_entries_of_mem (t := t) (m := clear) hsnap.ascending he
      rw [view_apply, show key = (snapshotEntry c key entry).key from rfl, hreplay,
        hrestored, Option.filter_some, if_pos (alive_restored hrestored), Option.map_some,
        value_restored hrestored]
      rfl

end Snapshots

section Main
open World
variable {n : ℕ} {hash : String → UInt64} {path : Path} {w : World n}

/-- A database, its log, and a snapshot of it, before a rewrite at the time `c` and a start-up
at the time `t`: the log restores the database, and no deadline is reached. -/
structure BeforeRewrite (k : ℕ) (hash : String → UInt64) (path : Path) (c t : Clock) (w : World n)
    (snapshot : DbSnapshot) : Prop where
  isOpen : w.engineFile = some ⟨path⟩
  routed : ShardedDatabase.Routed hash w.kv.db
  log : Restores k hash path t w.files (w.kv.db.toMap hash)
  taken : (ShardedDatabase.runAt c ShardedDatabase.snapshotEntries w.kv.db).1 = some snapshot
  later : c.instant ≤ t.instant
  ahead : ∀ key e, view c.instant (w.kv.db.toMap hash) key = some e → alive t.instant e
  loadable : Loadable (rewritten snapshot)

theorem BeforeRewrite.snapshotOf {k : ℕ} {c t : Clock} {snapshot : DbSnapshot}
    (h : BeforeRewrite k hash path c t w snapshot) :
    ShardedDatabase.SnapshotOf c (w.kv.db.toMap hash) snapshot.entries := by
  obtain ⟨s, db, hrun, -, hs⟩ := ShardedDatabase.snapshotEntries_spec (c := c) h.routed
  have htaken := h.taken
  rw [ShardedDatabase.runAt, hrun] at htaken
  cases htaken
  exact hs

/-- No key lives until the start-up if and only if the snapshot is empty. -/
theorem BeforeRewrite.view_eq_none_iff {k : ℕ} {c t : Clock} {snapshot : DbSnapshot}
    (h : BeforeRewrite k hash path c t w snapshot) :
    (∀ key, view t.instant (w.kv.db.toMap hash) key = none) ↔ snapshot.entries = [] := by
  have hview (key : String) : view t.instant (w.kv.db.toMap hash) key =
      view c.instant (w.kv.db.toMap hash) key := view_eq_of_ahead h.later h.ahead key
  constructor
  · intro hnone
    refine List.eq_nil_iff_forall_not_mem.mpr fun e he => ?_
    obtain ⟨entry, hentry, -⟩ := (h.snapshotOf.mem_iff e).mp he
    rw [← hview, hnone] at hentry
    cases hentry
  · intro hnil key
    rw [hview]
    cases hkey : view c.instant (w.kv.db.toMap hash) key with
    | none => rfl
    | some entry =>
      have he := (h.snapshotOf.mem_iff (snapshotEntry c key entry)).mpr ⟨entry, hkey, rfl⟩
      rw [hnil] at he
      cases he

/-- What the path of the log names when the rewrite is stopped after `i` actions. -/
theorem rewrite_stopped_path (hw : w.engineFile = some ⟨path⟩) (snapshot : DbSnapshot) (c : Clock)
    (i : ℕ) :
    (Prog.stoppedAfter (exec c none) i (AofEngine.rewrite path snapshot) w).files path =
      if i < renamingAt snapshot then w.files path
      else if i = renamingAt snapshot then none else some (rewritten snapshot) := by
  obtain ⟨k, w', hk, hpasses, hnew⟩ := rewrite_replacing (c := c) hw snapshot
  by_cases hi : i ≤ k
  · exact hpasses.stopped i hi
  · rw [hpasses.stopped_of_le (by omega), hnew, if_neg (by omega), if_neg (by omega)]

/-- A start-up after a crash restores the keys and values of the database, unless the crash falls
between the two renames and there are keys, or after them and a timestamp of the snapshot does not
lie ahead. -/
theorem rewrite_stopped_iff {k : ℕ} {c t : Clock} {snapshot : DbSnapshot}
    (h : BeforeRewrite k hash path c t w snapshot) (c' : Clock) (i : ℕ) :
    Restores k hash path t
        (Prog.stoppedAfter (exec c' none) i (AofEngine.rewrite path snapshot) w).files
        (w.kv.db.toMap hash) ↔
      (i = renamingAt snapshot → snapshot.entries = []) ∧
      (renamingAt snapshot < i → ∀ e ∈ snapshot.entries, ∀ ts ∈ e.expireAtMs, Ahead t ts) := by
  have hpath := rewrite_stopped_path h.isOpen snapshot c' i
  generalize (Prog.stoppedAfter (exec c' none) i (AofEngine.rewrite path snapshot) w).files = files
    at hpath ⊢
  rcases Nat.lt_trichotomy i (renamingAt snapshot) with hi | hi | hi
  · -- the old file is in place
    rw [if_pos hi] at hpath
    have hlog := restores_iff.mp h.log
    rw [← load_congr hpath] at hlog
    refine iff_of_true (restores_iff.mpr hlog) ⟨fun heq => ?_, fun hlt => ?_⟩ <;> omega
  · rw [if_neg (by omega), if_pos hi] at hpath
    rw [restores_missing hpath, h.view_eq_none_iff]
    exact ⟨fun hnil => ⟨fun _ => hnil, fun hlt => by omega⟩, fun hcond => hcond.1 hi⟩
  · rw [if_neg (by omega), if_neg (by omega)] at hpath
    rw [restores_rewritten h.snapshotOf h.later h.ahead h.loadable hpath]
    exact ⟨fun hahead => ⟨fun heq => by omega, fun _ => hahead⟩, fun hcond => hcond.2 hi⟩

/-- A server that holds one key, and its log. -/
def oneKey : World 0 where
  kv := ⟨⟨fun _ => AList.insert "k" ⟨[118], none⟩ ∅, 1⟩, ServerStats.new ⟨0, 0⟩⟩
  files := FileSystem.put (fun _ => none) samplePath (logBytes [.set "k" [118]])
  engineFile := some ⟨samplePath⟩
  sent := []

def oneKeySnapshot : DbSnapshot := ⟨[⟨"k", [118], none⟩], 1, 0⟩

theorem oneKey_toMap : oneKey.kv.db.toMap (fun _ => 0) = put "k" ⟨[118], none⟩ clear := by
  funext key
  by_cases h : key = "k"
  · subst h
    rfl
  · rw [TimedMap.put_of_ne h]
    exact AList.lookup_insert_ne h

theorem oneKey_before (t : Clock) (h : 1 ≤ t.instant) :
    BeforeRewrite 0 (fun _ => 0) samplePath ⟨1, 1⟩ t oneKey oneKeySnapshot where
  isOpen := rfl
  routed := fun _ _ _ => Fin.ext (by omega)
  log := by
    have hsize : Loadable (logBytes [.set "k" [118]]) := by
      unfold Loadable
      decide +kernel
    obtain ⟨db, hload, hs⟩ := @load_log 0 _ samplePath t oneKey.files _ rfl hsize
      (LogFits.replayFits (by simp [LogFits, Record.op, DbOp.Representable]))
    refine restores_iff.mpr ⟨db, hload, fun key => ?_⟩
    rw [oneKey_toMap, hs.view_eq]
    rfl
  taken := rfl
  later := h
  ahead := by
    intro key e he
    rw [oneKey_toMap, view_eq_some_iff] at he
    by_cases hk : key = "k"
    · subst hk
      rw [TimedMap.put_self] at he
      cases he.1
      rfl
    · rw [TimedMap.put_of_ne hk] at he
      cases he.1
  loadable := by
    unfold Loadable
    decide +kernel

/-- The files when the rewrite is stopped after `i` actions. -/
def oneKeyStopped (i : ℕ) : FileSystem :=
  (Prog.stoppedAfter (exec ⟨1, 1⟩ none) i (AofEngine.rewrite samplePath oneKeySnapshot) oneKey).files

/-- The twelfth action renames the log: a crash before it loses nothing, a crash right after it the
key, and a crash after the next action again nothing. -/
theorem rewrite_stopped_iff_oneKey : renamingAt oneKeySnapshot = 12 ∧
    Restores 0 (fun _ => 0) samplePath ⟨2, 2⟩ (oneKeyStopped 11) (oneKey.kv.db.toMap fun _ => 0) ∧
    ¬ Restores 0 (fun _ => 0) samplePath ⟨2, 2⟩ (oneKeyStopped 12) (oneKey.kv.db.toMap fun _ => 0) ∧
    Restores 0 (fun _ => 0) samplePath ⟨2, 2⟩ (oneKeyStopped 13) (oneKey.kv.db.toMap fun _ => 0) := by
  have h := rewrite_stopped_iff (oneKey_before ⟨2, 2⟩ (by decide)) ⟨1, 1⟩
  have hcount : renamingAt oneKeySnapshot = 12 := rfl
  refine ⟨hcount, (h 11).mpr ?_, fun h₁₂ => ?_, (h 13).mpr ?_⟩
  · rw [hcount]
    exact ⟨fun heq => by omega, fun hlt => by omega⟩
  · cases ((h 12).mp h₁₂).1 hcount.symm
  · rw [hcount]
    refine ⟨fun heq => by omega, fun _ e he ts hts => ?_⟩
    cases List.mem_singleton.mp he
    cases hts

/-- Between the two renames the key is lost. -/
theorem rewrite_stopped_loses : ¬ ∀ (w : World 0) (snapshot : DbSnapshot) (c c' t : Clock) (i : ℕ),
    BeforeRewrite 0 (fun _ => 0) samplePath c t w snapshot →
    Restores 0 (fun _ => 0) samplePath t
      (Prog.stoppedAfter (exec c' none) i (AofEngine.rewrite samplePath snapshot) w).files
      (w.kv.db.toMap fun _ => 0) := by
  intro hall
  have hrestored := hall oneKey oneKeySnapshot ⟨1, 1⟩ ⟨1, 1⟩ ⟨2, 2⟩ 12
    (oneKey_before ⟨2, 2⟩ (by decide))
  have hmissing : (Prog.stoppedAfter (exec ⟨1, 1⟩ none) 12
      (AofEngine.rewrite samplePath oneKeySnapshot) oneKey).files samplePath = none := by
    decide +kernel
  have hk := (restores_missing hmissing).mp hrestored "k"
  rw [oneKey_toMap, view_apply, TimedMap.put_self] at hk
  cases hk

end Main

end RustKV

import RustKV.ServerWrites

/-! The rewrite keeps the contract of the log. It owns the log and the memory as long as it has the
barrier for writing: the snapshot is of the memory as it stays, and the file that replaces the log
holds that snapshot. -/
namespace RustKV
open Decimal TimedMap Tasks Prog ServerM Contract

section Snapshots
variable {ι : Type} [DecidableEq ι] {n : ℕ} {held outer : List (ServerLock n × LockMode)} {c T : Clock}
  {hash : String → UInt64} {path : Path} {i : ι} {round : Round} {s s' : ServerState ι n}
  {snapshot : DbSnapshot}

theorem retainAlive_of_distant {db : Database} (hc : c.Advances T) (h : AllDistant T db.toMap) :
    ShardedDatabase.retainAlive c db = db := by
  refine Database.retain_of_all fun key e he => ?_
  have halive := h.allAlive hc key e he
  rwa [alive] at halive

/-- The entries are those of the memory at a time not after `T`. -/
def Taken (T : Clock) (hash : String → UInt64) (entries : List DbSnapshotEntry)
    (s : ServerState ι n) : Prop :=
  ∃ c : Clock, 0 ≤ c.unix ∧ c.Advances T ∧
    ShardedDatabase.SnapshotOf c (s.kv.db.toMap hash) entries

omit [DecidableEq ι] in
theorem stable_taken {entries : List DbSnapshotEntry} :
    Stable (Taken (ι := ι) (n := n) T hash entries) := by
  intro s s' hs h
  obtain ⟨c, h0, hT, hsnap⟩ := h
  refine ⟨c, h0, hT, ?_⟩
  rw [hs.toMap_eq]
  exact hsnap

/-- Settled, and the shards are these. -/
def Frozen (T : Clock) (hash : String → UInt64) (path : Path) (shards : Fin (n + 1) → Database)
    (s : ServerState ι n) : Prop := Settled T hash path s ∧ s.kv.db.shards = shards

omit [DecidableEq ι] in
theorem stable_frozen {shards : Fin (n + 1) → Database} :
    Stable (Frozen (ι := ι) T hash path shards) :=
  fun _ _ hs h => ⟨h.1.same hs, hs.shards.trans h.2⟩

/-- The section of a snapshot finds the shard as it is, and leaves it. -/
theorem keeps_snapshotSection {shards : Fin (n + 1) → Database} {x : Fin (n + 1)} {α : Type}
    {f : Locked (List DbSnapshotEntry) → DbM n α}
    {Q : α → List (ServerLock n × LockMode) → ServerState ι n → Prop} (howns : Owns outer)
    (hlog : ¬ LogGuards outer) (hc : c.Advances T)
    (h : Holding T hash outer (Frozen T hash path shards) held s)
    (hf : ∀ locked held s, locked.result = snapshotOf c (ShardedDatabase.retainAlive c (shards x)) →
      Holding T hash outer (Frozen T hash path shards) held s →
      (storeCustody T hash path i round).Keeps Q (f locked) held s) :
    (storeCustody T hash path i round).Keeps Q
      (perform (DbAct.shard x (.snapshotEntries c)) >>= f) held s := by
  apply keeps_perform_bind
  intro s₁ hleaves
  have h₁ := h.leaves howns stable_frozen hleaves
  refine ⟨h₁.duty howns (within_kv _) nofun fun _ hl => absurd hl hlog, ?_⟩
  rintro _ s₂ ⟨locked, hacts, rfl⟩
  obtain ⟨hsettled, hshards⟩ := h₁.holds
  have hdistant := allDistant_shard h₁.steady.routed h₁.steady.distant x
  have hretain := retainAlive_of_distant hc hdistant
  have hdoes : locked.result = snapshotOf c (ShardedDatabase.retainAlive c (s₁.kv.db.shards x)) ∧
      Same s₁ s₂ := by
    cases CustodyActs.does hacts with
    | exec hexec =>
      have hlocked := Option.some.inj (congrArg Prod.fst hexec)
      have hworld := congrArg Prod.snd hexec
      subst hworld
      refine ⟨congrArg Locked.result hlocked.symm, rfl, rfl, ?_⟩
      change Function.update s₁.kv.db.shards x (ShardedDatabase.retainAlive c (s₁.kv.db.shards x)) =
        s₁.kv.db.shards
      rw [hretain, Function.update_eq_self]
  obtain ⟨hresult, hsame⟩ := hdoes
  have hguards := h₁.guards.after (within_kv (.db (.shard x (.snapshotEntries c))))
  refine hf locked _ s₂ ?_ ⟨hguards, CustodyActs.after hacts, stable_frozen s₁ s₂ hsame h₁.holds⟩
  rw [hresult, hshards]

/-- The snapshot of an owner is of the memory as it stays. -/
theorem keeps_snapshotEntries (howns : Owns outer) (hlog : ¬ LogGuards outer)
    (h : Holding T hash outer (Settled T hash path) held s) :
    (custody T hash path i round).Keeps
      (fun snapshot held s => Holding T hash outer
        (fun s => Settled T hash path s ∧ Taken T hash snapshot.entries s) held s)
      (onDb ShardedDatabase.snapshotEntries) held s := by
  rw [onDb_eq_lift]
  apply keeps_lift
  refine keeps_dbAct (a := .acquire .global .write) howns stable_settled id nofun h
    fun _ held s h => ?_
  apply keeps_perform_bind (a := DbAct.now)
  intro s₁ hleaves
  have h₁ := h.leaves howns stable_settled hleaves
  refine ⟨h₁.duty howns (within_kv _) nofun fun _ _ => h₁.holds, ?_⟩
  rintro _ s₂ ⟨c, hacts, rfl⟩
  have hsame : Same s₁ s₂ := CustodyActs.same hacts id
  have hc : c = s₁.clock := by
    cases CustodyActs.does hacts with
    | exec hexec => exact (Option.some.inj (congrArg Prod.fst hexec)).symm
  have hT : c.Advances T := hc ▸ h₁.steady.later
  have h0 : 0 ≤ c.unix := hc ▸ h₁.steady.epoch
  have h₂ : Holding T hash outer (Frozen T hash path s₂.kv.db.shards) held s₂ :=
    ⟨h₁.guards, CustodyActs.after hacts, h₁.holds.same hsame, rfl⟩
  generalize s₂.kv.db.shards = shards at h₂
  -- the walk over the shards
  have hstable (done : List (Fin (n + 1))) (acc : List DbSnapshotEntry × ℕ)
      (held : List (ServerLock n × LockMode)) (s s' : ServerState ι n)
      (hacc : Holding T hash outer (Frozen T hash path shards) held s ∧ acc.1 =
        (done.map fun x => snapshotOf c (ShardedDatabase.retainAlive c (shards x))).flatten)
      (hleaves : CustodyLeaves T hash held s s') :
      Holding T hash outer (Frozen T hash path shards) held s' ∧ acc.1 =
        (done.map fun x => snapshotOf c (ShardedDatabase.retainAlive c (shards x))).flatten :=
    ⟨hacc.1.leaves howns stable_frozen hleaves, hacc.2⟩
  refine keeps_bind (keeps_forEach (fun done x rest acc held s _ hacc => ?_) hstable ⟨h₂, rfl⟩) ?_
  · refine keeps_dbAct (a := .acquire (.shard x) .write) howns stable_frozen id nofun hacc.1
      fun _ held s h => ?_
    refine keeps_snapshotSection howns hlog hT h fun locked held s hresult h => ?_
    refine keeps_dbAct (a := .applyLenChange locked.before locked.after) howns stable_frozen id
      nofun h fun _ held s h => ?_
    refine keeps_dbAct (a := .release (.shard x) .write) howns stable_frozen id nofun h
      fun _ held s h => ?_
    refine keeps_pure fun s' hleaves => hstable _ _ held s s' ⟨h, ?_⟩ hleaves
    rw [List.map_append, List.flatten_append, ← hacc.2, List.map_singleton, List.flatten_singleton]
    exact congrArg (acc.1 ++ ·) hresult
  rintro ⟨entries, expired⟩ held s ⟨h, hentries⟩
  refine keeps_dbAct (a := .loadLen) howns stable_frozen id nofun h fun keyCount held s h => ?_
  refine keeps_dbAct (a := .release .global .write) howns stable_frozen id nofun h
    fun _ held s h => ?_
  refine keeps_pure fun s' hleaves => ?_
  have h' := h.leaves howns stable_frozen hleaves
  obtain ⟨hsettled, hshards⟩ := h'.holds
  refine ⟨h'.guards, h'.steady, hsettled, c, h0, hT, ?_⟩
  have hsnap := ShardedDatabase.snapshotOf_collected (c := c) h'.steady.routed
  rw [hshards, List.map_map] at hsnap
  dsimp only at hentries ⊢
  rw [hentries]
  exact hsnap

end Snapshots

section Disk
variable {n : ℕ}

/-- The actions on files and on the field of the engine. -/
def ServerAct.OnDisk : ServerAct n → Prop
  | .file _ | .engineFile | .setEngineFile _ => True
  | _ => False

theorem onDisk_file (a : FileAct) : (onFile a : ServerM n _).Only ServerAct.OnDisk :=
  only_perform trivial

theorem onDisk_setEngineFile (file : Option File) :
    (setEngineFile file : ServerM n _).Only ServerAct.OnDisk := only_perform trivial

theorem onDisk_andThen {α β : Type} {p : ServerM n (IoResult α)} {f : α → ServerM n (IoResult β)}
    (hp : p.Only ServerAct.OnDisk) (hf : ∀ x, (f x).Only ServerAct.OnDisk) :
    (andThen p f).Only ServerAct.OnDisk := by
  refine only_bind hp fun r => ?_
  rcases r with error | x
  · exact only_pure _
  · exact hf x

theorem onDisk_removeFileIfExists (target : Path) :
    (removeFileIfExists target : ServerM n _).Only ServerAct.OnDisk := by
  refine only_bind (onDisk_file _) fun r => ?_
  rcases r with error | x
  · dsimp only
    split_ifs <;> exact only_pure _
  · exact only_pure _

theorem onDisk_renameFileIfExists (source target : Path) :
    (renameFileIfExists source target : ServerM n _).Only ServerAct.OnDisk := by
  refine only_bind (onDisk_file _) fun r => ?_
  rcases r with error | x
  · dsimp only
    split_ifs <;> exact only_pure _
  · exact only_pure _

theorem onDisk_replaceAofFile (path temp backup : Path) :
    (replaceAofFile path temp backup : ServerM n _).Only ServerAct.OnDisk := by
  refine onDisk_andThen (onDisk_removeFileIfExists backup) fun _ => ?_
  refine onDisk_andThen (onDisk_renameFileIfExists path backup) fun backedUp => ?_
  refine only_bind (onDisk_file _) fun r => ?_
  rcases r with error | x <;> cases backedUp
  · exact only_pure _
  · exact only_bind (onDisk_file _) fun _ => only_pure _
  · exact only_pure _
  · exact onDisk_removeFileIfExists backup

theorem onDisk_flush : (AofEngine.flush : ServerM n _).Only ServerAct.OnDisk := by
  have hfile : (AofEngine.fileMut : ServerM n _).Only ServerAct.OnDisk := by
    refine only_bind (only_perform trivial) fun found => ?_
    cases found <;> exact only_pure _
  exact onDisk_andThen hfile fun _ => onDisk_andThen (onDisk_file _) fun _ => onDisk_file _

end Disk

section Renewals
variable {ι : Type} [DecidableEq ι] {n : ℕ} {held outer : List (ServerLock n × LockMode)} {c T : Clock}
  {hash : String → UInt64} {path : Path} {i : ι} {round : Round} {s s' : ServerState ι n}
  {entries : List DbSnapshotEntry} {files : FileSystem} {file : Option File} {α : Type}

/-- The files and the field of the engine, and a snapshot of the memory. -/
structure Renewal (T : Clock) (hash : String → UInt64) (entries : List DbSnapshotEntry)
    (files : FileSystem) (file : Option File) (s : ServerState ι n) : Prop where
  files_eq : s.files = files
  engineFile_eq : s.engineFile = file
  taken : Taken T hash entries s

omit [DecidableEq ι] in
theorem stable_renewal : Stable (Renewal (ι := ι) (n := n) T hash entries files file) :=
  fun s s' hs h => ⟨hs.files.trans h.files_eq, hs.engineFile.trans h.engineFile_eq,
    stable_taken s s' hs h.taken⟩

/-- Beside an owner the disk is as if it were alone: what a program without a look at the clock
does alone it does here. -/
theorem keeps_run {p : ServerM n α} {w w' : World n} {x : α} (howns : Owns outer)
    (hlog : ¬ LogGuards outer) (hp : p.Only ServerAct.OnDisk)
    (hrun : p.run (World.exec c none) w = (some x, w'))
    (h : Holding T hash outer (Renewal T hash entries w.files w.engineFile) held s) :
    (custody T hash path i round).Keeps (fun r held s => r = x ∧
      Holding T hash outer (Renewal T hash entries w'.files w'.engineFile) held s) p held s := by
  induction p generalizing w held s with
  | ret y =>
    cases hrun
    exact fun s' hleaves => ⟨rfl, h.leaves howns stable_renewal hleaves⟩
  | act a k ih =>
    intro s₁ hleaves
    have h₁ := h.leaves howns stable_renewal hleaves
    obtain ⟨hfiles, hfile, htaken⟩ := h₁.holds
    rw [run_act] at hrun
    cases a with
    | kv | acquire | release | writeValue | panic => exact hp.1.elim
    | file a =>
      refine ⟨h₁.duty howns (.inl rfl) nofun fun _ hl => absurd hl hlog, ?_⟩
      intro answer s₂ hacts
      obtain ⟨hanswer, hs⟩ := CustodyActs.succeeds hacts
      have hexec : World.exec c none (.file a) w = (some (FileSystem.exec a w.files).1,
          { w with files := (FileSystem.exec a w.files).2 }) := by
        cases a <;> rfl
      rw [hexec, ← hfiles] at hrun
      obtain rfl := Option.some.inj hanswer
      refine ih _ (hp.2 _) hrun ⟨h₁.guards, CustodyActs.after hacts, ?_⟩
      rw [hs]
      exact ⟨rfl, hfile, htaken⟩
    | engineFile =>
      refine ⟨h₁.duty howns (.inl rfl) nofun fun _ hl => absurd hl hlog, ?_⟩
      intro answer s₂ hacts
      have hsame : Same s₁ s₂ := CustodyActs.same hacts id
      have hanswer : answer = w.engineFile := by
        cases CustodyActs.does hacts with
        | exec hexec => exact (Option.some.inj (congrArg Prod.fst hexec)).symm.trans hfile
      subst hanswer
      exact ih _ (hp.2 _) hrun ⟨h₁.guards, CustodyActs.after hacts,
        stable_renewal s₁ s₂ hsame ⟨hfiles, hfile, htaken⟩⟩
    | setEngineFile file =>
      refine ⟨h₁.duty howns (.inl rfl) nofun fun _ hl => absurd hl hlog, ?_⟩
      intro answer s₂ hacts
      have hs : s₂.files = s₁.files ∧ s₂.engineFile = file ∧ s₂.kv = s₁.kv := by
        cases CustodyActs.does hacts with
        | exec hexec =>
          have hworld := congrArg Prod.snd hexec
          subst hworld
          exact ⟨rfl, rfl, rfl⟩
      obtain ⟨hs, hset, hkv⟩ := hs
      refine ih _ (hp.2 _) hrun ⟨h₁.guards, CustodyActs.after hacts, hs.trans hfiles, hset, ?_⟩
      rw [Taken, hkv]
      exact htaken

/-- The entries are written one after the other; what the clock says does not matter. -/
theorem keeps_writeEntries {target : Path} (howns : Owns outer) (hlog : ¬ LogGuards outer)
    (more : List DbSnapshotEntry) (content : Bytes)
    (h : Holding T hash outer (Renewal T hash entries (files.put target content) file) held s) :
    (custody T hash path i round).Keeps (fun r held s => r = .ok () ∧
      Holding T hash outer (Renewal T hash entries (files.put target
        (content ++ logBytes (more.map Record.ofEntry))) file) held s)
      (writeEntries ⟨target⟩ more) held s := by
  induction more generalizing content held s with
  | nil =>
    rw [List.map_nil, logBytes_nil, List.append_nil]
    exact keeps_pure fun s' hleaves => ⟨rfl, h.leaves howns stable_renewal hleaves⟩
  | cons entry more ih =>
    apply keeps_perform_bind (a := ServerAct.kv (.db .now))
    intro s₁ hleaves
    obtain ⟨hduty, hacts⟩ := (h.leaves howns stable_renewal hleaves).act path i round howns
      stable_renewal (a := .kv (.db .now)) id (within_kv _) nofun fun _ hl => absurd hl hlog
    refine ⟨hduty, fun (now : Clock) s₂ hdoes => ?_⟩
    let w : World n := ⟨s₂.kv, files.put target content, file, []⟩
    have hwrite := @World.run_onFile _ now none
      (.writeAll ⟨target⟩ (snapshotEntryToRespBytes now entry)) w
    apply keeps_andThen (keeps_run howns hlog (onDisk_file _) hwrite (hacts now s₂ hdoes))
    rintro _ held s ⟨rfl, h⟩
    refine ⟨(), rfl, ?_⟩
    have hcontent : (FileSystem.execFaulty none (.writeAll ⟨target⟩
        (snapshotEntryToRespBytes now entry)) w.files).2 =
          files.put target (content ++ (Record.ofEntry entry).bytes) := by
      change (files.put target content).put target
        (((files.put target content) target).getD [] ++ snapshotEntryToRespBytes now entry) = _
      rw [RustKV.put_self, Option.getD_some, put_put, snapshotEntryToRespBytes_ofEntry]
    have hrest := ih (content ++ (Record.ofEntry entry).bytes) (by
      rw [← hcontent]
      exact h)
    rw [List.append_assoc] at hrest
    exact hrest

/-- The file that is to replace the log. -/
theorem keeps_writeRewriteFile {target : Path} {snapshot : DbSnapshot} (howns : Owns outer)
    (hlog : ¬ LogGuards outer)
    (h : Holding T hash outer (Renewal T hash entries files file) held s) :
    (custody T hash path i round).Keeps (fun r held s => r = .ok () ∧
      Holding T hash outer (Renewal T hash entries (files.put target (rewritten snapshot)) file)
        held s)
      (writeRewriteFile target snapshot) held s := by
  have hopen := @World.run_onFile _ T none (.openTruncate target)
    (⟨s.kv, files, file, []⟩ : World n)
  apply keeps_andThen (keeps_run howns hlog (onDisk_file _) hopen h)
  rintro _ held s ⟨rfl, h⟩
  refine ⟨⟨target⟩, rfl, ?_⟩
  apply keeps_andThen (keeps_writeEntries howns hlog snapshot.entries [] h)
  rintro _ held s ⟨rfl, h⟩
  refine ⟨(), rfl, ?_⟩
  let w : World n := ⟨s.kv, files.put target (rewritten snapshot), file, []⟩
  have hsync : Leaves T (fun _ => True)
      (andThen (onFile (.flush ⟨target⟩)) fun _ => onFile (.syncAll ⟨target⟩)) w 2 (.ok ()) w :=
    leaves_andThen (leaves_onFile (a := .flush ⟨target⟩) rfl trivial trivial)
      (leaves_onFile (a := .syncAll ⟨target⟩) rfl trivial trivial) rfl
  exact keeps_run howns hlog (onDisk_andThen (onDisk_file _) fun _ => onDisk_file _) hsync.run_eq h

omit [DecidableEq ι] in
/-- A log that holds the snapshot agrees with the memory. -/
theorem Renewal.settled {snapshot : DbSnapshot} (hs : Steady T hash s)
    (h : Renewal T hash snapshot.entries files (some ⟨path⟩) s)
    (hfile : files path = some (rewritten snapshot)) : Settled T hash path s := by
  obtain ⟨hfiles, hopen, c, h0, hT, hsnap⟩ := h
  obtain ⟨hfits, houtline⟩ := outline_snapshot h0 hT hsnap hs.distant
  refine ⟨snapshot.entries.map Record.ofEntry, ⟨hfits, houtline⟩, ?_, hopen⟩
  rw [hfiles]
  exact hfile

/-- The rewrite replaces a log that agrees with the memory by another one. -/
theorem keeps_rewrite {snapshot : DbSnapshot} (howns : Owns outer) (hlog : ¬ LogGuards outer)
    (h : Holding T hash outer
      (fun s => Settled T hash path s ∧ Taken T hash snapshot.entries s) held s) :
    (custody T hash path i round).Keeps
      (fun _ held s => Holding T hash outer (Settled T hash path) held s)
      (AofEngine.rewrite path snapshot) held s := by
  obtain ⟨⟨log, hlogs⟩, htaken⟩ := h.holds
  have h₀ : Holding T hash outer (Renewal T hash snapshot.entries s.files (some ⟨path⟩)) held s :=
    ⟨h.guards, h.steady, rfl, hlogs.isOpen, htaken⟩
  generalize s.files = files at h₀
  have htemp : rewriteTempPath path ≠ path := rewriteTempPath_ne
  let w : World n := ⟨s.kv, files, some ⟨path⟩, []⟩
  have hremove : Leaves T (fun _ => True) (removeFileIfExists (rewriteTempPath path)) w 1 (.ok ())
      (w.withFiles (files.delete (rewriteTempPath path))) :=
    leaves_removeFileIfExists trivial trivial
  apply keeps_andThen (keeps_run howns hlog (onDisk_removeFileIfExists _) hremove.run_eq h₀)
  rintro _ held s ⟨rfl, h₁⟩
  refine ⟨(), rfl, ?_⟩
  apply keeps_andThen (keeps_writeRewriteFile howns hlog h₁)
  rintro _ held s ⟨rfl, h₂⟩
  refine ⟨(), rfl, ?_⟩
  have hnew := RustKV.put_self (files.delete (rewriteTempPath path)) (rewriteTempPath path)
    (rewritten snapshot)
  dsimp only [World.withFiles, w] at h₂
  generalize (files.delete (rewriteTempPath path)).put (rewriteTempPath path) (rewritten snapshot) =
    written at h₂ hnew
  let w₂ : World n := ⟨s.kv, written, some ⟨path⟩, []⟩
  have hflush : Leaves T (fun _ => True) AofEngine.flush w₂ 3 (.ok ()) w₂ := leaves_flush rfl trivial
  apply keeps_andThen (keeps_run howns hlog onDisk_flush hflush.run_eq h₂)
  rintro _ held s ⟨rfl, h₃⟩
  refine ⟨(), rfl, ?_⟩
  -- while the files are renamed, the engine has none open
  have hclose := leaves_setEngineFile (c := T) (P := fun _ => True) none
    (w := w₂) trivial
  apply keeps_bind (keeps_run howns hlog (onDisk_setEngineFile none) hclose.run_eq h₃)
  rintro _ held s ⟨-, h₄⟩
  obtain ⟨_, renamed, -, hreplace, hrenamed⟩ := leavesAt_replaceAofFile (c := T)
    (w := (⟨s.kv, written, none, []⟩ : World n)) htemp rewriteBackupPath_ne
    rewriteTempPath_ne_backup rfl hnew
  apply keeps_bind (keeps_run howns hlog (onDisk_replaceAofFile _ _ _) hreplace.run_eq h₄)
  rintro _ held s ⟨rfl, h₅⟩
  have hreopen := @World.run_onFile _ T none (.openAppend path)
    (⟨s.kv, renamed, none, []⟩ : World n)
  apply keeps_bind (keeps_run howns hlog (onDisk_file _) hreopen h₅)
  rintro _ held s ⟨rfl, h₆⟩
  have hset := leaves_setEngineFile (c := T) (P := fun _ => True) (some ⟨path⟩)
    (w := (⟨s.kv, renamed.put path ((renamed path).getD []), none, []⟩ : World n)) trivial
  apply keeps_bind (keeps_run howns hlog (onDisk_setEngineFile _) hset.run_eq h₆)
  rintro _ held s ⟨-, h₇⟩
  have hfile : renamed.put path ((renamed path).getD []) path = some (rewritten snapshot) := by
    rw [RustKV.put_self, hrenamed, Option.getD_some]
  refine keeps_pure fun s' hleaves => ?_
  have h₈ := h₇.leaves howns stable_renewal hleaves
  exact ⟨h₈.guards, h₈.steady, h₈.holds.settled h₈.steady hfile⟩

/-- The guards of a rewrite, while it takes the snapshot and while it replaces the log. -/
def barrierGuard : List (ServerLock n × LockMode) := [(.aof .rewriteBarrier, .write)]

def rewriteGuards : List (ServerLock n × LockMode) := (.aof .engine, .write) :: barrierGuard

theorem SameGuards.cons (h : SameGuards held outer) (guard : ServerLock n × LockMode) :
    SameGuards (guard :: held) (guard :: outer) := by
  intro lock mode
  rw [List.mem_cons, List.mem_cons, h lock mode]

/-- The rewrite begins and ends without debts. -/
theorem keeps_maybeRewriteAof (rewriteMinSize : ℕ) (hs : Steady T hash s) :
    (custody T hash path i round).Keeps (fun _ held s => Clear T hash path held s)
      (maybeRewriteAof path rewriteMinSize) [] s := by
  have hbarrier : Owns (barrierGuard (n := n)) ∧ ¬ LogGuards (barrierGuard (n := n)) := by
    simp [Owns, LogGuards, barrierGuard]
  have hrewrite : Owns (rewriteGuards (n := n)) ∧ ¬ LogGuards (rewriteGuards (n := n)) := by
    simp [Owns, LogGuards, rewriteGuards, barrierGuard]
  have hstart : Clear T hash path [] s := ⟨hs, by simp [Owns, LogGuards]⟩
  apply keeps_clear_bind (idle_acquire .engine .write) hstart
  intro _ s₁ h₁
  have hsize : (AofEngine.fileSize path : ServerM n _).Only fun a => a.Idle ∧ a.use = .none := by
    refine only_bind (only_perform ⟨⟨id, by intro h; cases h⟩, rfl⟩) fun r => ?_
    rcases r with error | len
    · dsimp only
      split_ifs <;> exact only_pure _
    · exact only_pure _
  apply keeps_bind (keeps_unlocked hsize h₁)
  rintro size _ s₂ ⟨rfl, h₂⟩
  apply keeps_clear_bind (idle_release .engine .write) h₂
  intro _ s₃ h₃
  have hdone (r : IoResult Unit) : (custody T hash path i round).Keeps
      (fun _ held s => Clear T hash path held s) (pure r) [] s₃ :=
    keeps_pure fun s' hleaves => h₃.leaves hleaves
  rcases size with error | currentSize
  · exact hdone _
  dsimp only
  split_ifs
  · exact hdone _
  apply keeps_clear_bind (idle_acquire .rewriteBarrier .write) h₃
  intro _ s₄ h₄
  have howned : Holding T hash barrierGuard (Settled T hash path) barrierGuard s₄ :=
    ⟨fun _ _ => Iff.rfl, h₄.steady, h₄.settled hbarrier.1⟩
  apply keeps_bind (keeps_snapshotEntries hbarrier.1 hbarrier.2 howned)
  intro snapshot held s₅ h₅
  have hstable : Stable fun s : ServerState ι n =>
      Settled T hash path s ∧ Taken T hash snapshot.entries s :=
    fun s s' hs h => ⟨h.1.same hs, stable_taken s s' hs h.2⟩
  apply keeps_perform_bind (a := ServerAct.acquire .engine .write)
  intro s₆ hleaves
  have h₆ := h₅.leaves hbarrier.1 hstable hleaves
  have hidle := idle_acquire (n := n) .engine .write
  obtain ⟨hduty, -⟩ := (h₆.clear fun _ hs => hs.1).act i round hidle.1 hidle.2
  refine ⟨hduty, fun _ s₇ hacts => ?_⟩
  have h₇ : Holding T hash rewriteGuards
      (fun s => Settled T hash path s ∧ Taken T hash snapshot.entries s)
      ((.aof .engine, .write) :: held) s₇ :=
    ⟨h₆.guards.cons _, CustodyActs.after hacts,
      hstable s₆ s₇ (CustodyActs.same hacts id) h₆.holds⟩
  apply keeps_bind (keeps_rewrite hrewrite.1 hrewrite.2 h₇)
  intro result held s₈ h₈
  refine keeps_clear ?_ (h₈.clear fun _ hs => hs)
  refine only_bind (only_perform (idle_release .engine .write)) fun _ => ?_
  exact only_bind (only_perform (idle_release .rewriteBarrier .write)) fun _ => only_pure _

/-- Every round of a server with a log begins and ends without debts. -/
theorem Round.keeps_custody {settings : Settings} (hpath : settings.aofPath = some path)
    (hs : Steady T settings.hash s) :
    (custody T settings.hash path i round).Keeps
      (fun _ held s => Clear T settings.hash path held s) (round.prog settings) [] s := by
  cases round with
  | client q =>
    change (custody T settings.hash path i (.client q)).Keeps _ (handleFrame _ _ _ _) [] s
    rw [hpath]
    exact keeps_handleFrame hs
  | rewrite =>
    unfold Round.prog
    dsimp only
    rw [hpath]
    exact keeps_maybeRewriteAof settings.rewriteMinSize hs
  | ttl => exact keeps_ttlTick hs

end Renewals

end RustKV

import RustKV.AofRewrite

/-! Rewriting the log while filesystem operations fail. An operation that fails leaves the files
as they are. The log is lost in one way only: it has been renamed, the new file cannot take its
place, it cannot be renamed back, and an empty file is opened under its name. -/
namespace RustKV
open Decimal TimedMap Prog

/-- The server, and how many filesystem operations it has tried. -/
structure Trial (n : ℕ) where
  world : World n
  tried : ℕ

/-- The filesystem operations that fail, in the order in which they are tried. -/
abbrev Failures := ℕ → Option IoError

def Trial.exec {n : ℕ} (c : Clock) (failures : Failures) :
    (a : ServerAct n) → Trial n → Option a.Answer × Trial n
  | .file a, s =>
    match failures s.tried with
    | some error => (some (.error error), { s with tried := s.tried + 1 })
    | none =>
      match FileSystem.exec a s.world.files with
      | (answer, files) => (some answer, ⟨s.world.withFiles files, s.tried + 1⟩)
  | a, s =>
    match World.exec c none a s.world with
    | (answer, world) => (answer, { s with world := world })

/-- These operations pass. -/
def Pass (failures : Failures) (i j : ℕ) : Prop := ∀ x, i ≤ x → x < j → failures x = none

/-- A missing file is no failure where the program asks whether the file exists. -/
def Forgiven (failure : Option IoError) : Prop := ∀ error ∈ failure, error.kind = .notFound

section Rules
open ServerM
variable {n : ℕ} {c : Clock} {failures : Failures} {s : Trial n} {α β : Type}

theorem pass_add {i j k : ℕ} :
    Pass failures i (i + j + k) ↔ Pass failures i (i + j) ∧ Pass failures (i + j) (i + j + k) := by
  constructor
  · intro h
    exact ⟨fun x hx hlt => h x hx (by omega), fun x hx hlt => h x (by omega) hlt⟩
  · intro ⟨h₁, h₂⟩ x hx hlt
    by_cases hj : x < i + j
    · exact h₁ x hx hj
    · exact h₂ x (by omega) hlt

theorem pass_one {i : ℕ} : Pass failures i (i + 1) ↔ failures i = none := by
  constructor
  · intro h
    exact h i le_rfl (by omega)
  · intro h x hx hlt
    obtain rfl : x = i := by omega
    exact h

/-- What is left by a program that tries `count` operations and stops at the first one that
fails: `Done` if all pass, and `Kept` else. -/
def Tries (failures : Failures) (s : Trial n) (count : ℕ) (Kept : World n → Prop)
    (Done : α → World n → Prop) (result : IoResult α) (s' : Trial n) : Prop :=
  match result with
  | .ok a => Pass failures s.tried (s.tried + count) ∧ s'.tried = s.tried + count ∧ Done a s'.world
  | .error _ => ¬ Pass failures s.tried (s.tried + count) ∧ Kept s'.world

variable {Kept : World n → Prop} {Done : α → World n → Prop} {Done' : β → World n → Prop}

theorem ensures_onFile_bind {a : FileAct} {f : IoResult a.Value → ServerM n β}
    {Q : β → Trial n → Prop}
    (hfail : ∀ error, failures s.tried = some error →
      Ensures (Trial.exec c failures) (f (.error error)) ⟨s.world, s.tried + 1⟩ Q)
    (hpass : failures s.tried = none →
      Ensures (Trial.exec c failures) (f (FileSystem.exec a s.world.files).1)
        ⟨s.world.withFiles (FileSystem.exec a s.world.files).2, s.tried + 1⟩ Q) :
    Ensures (Trial.exec c failures) (onFile a >>= f) s Q := by
  cases hfailure : failures s.tried with
  | some error =>
    obtain ⟨b, s', hrun, hQ⟩ := hfail error hfailure
    refine ⟨b, s', ?_, hQ⟩
    refine (run_perform_bind (h := Trial.exec c failures) (ServerAct.file a) f s).trans ?_
    rw [Trial.exec, hfailure]
    exact hrun
  | none =>
    obtain ⟨b, s', hrun, hQ⟩ := hpass hfailure
    refine ⟨b, s', ?_, hQ⟩
    refine (run_perform_bind (h := Trial.exec c failures) (ServerAct.file a) f s).trans ?_
    rw [Trial.exec, hfailure]
    exact hrun

theorem ensures_andThen {p : ServerM n (IoResult α)} {f : α → ServerM n (IoResult β)}
    {P : IoResult α → Trial n → Prop} {Q : IoResult β → Trial n → Prop}
    (hp : Ensures (Trial.exec c failures) p s P)
    (herror : ∀ error s', P (.error error) s' → Q (.error error) s')
    (hok : ∀ a s', P (.ok a) s' → Ensures (Trial.exec c failures) (f a) s' Q) :
    Ensures (Trial.exec c failures) (andThen p f) s Q := by
  refine ensures_bind hp fun result s' hresult => ?_
  rcases result with error | a
  · exact ensures_pure (herror error s' hresult)
  · exact hok a s' hresult

theorem tries_onFile {a : FileAct} {value : a.Value} {files : FileSystem}
    {Done : a.Value → World n → Prop}
    (ha : FileSystem.exec a s.world.files = (.ok value, files)) (hkept : Kept s.world)
    (hdone : Done value (s.world.withFiles files)) :
    Ensures (Trial.exec c failures) (onFile a) s (Tries failures s 1 Kept Done) := by
  have hbind := @ensures_onFile_bind _ c failures s _ a (fun result => pure result)
    (Tries failures s 1 Kept Done)
    (fun error hfail => ensures_pure ⟨fun h => ?_, hkept⟩)
    (fun hpass => ensures_pure ?_)
  · exact hbind
  · rw [pass_one, hfail] at h
    cases h
  · rw [ha]
    exact ⟨pass_one.mpr hpass, rfl, hdone⟩

theorem tries_pure {a : α} (hdone : Done a s.world) :
    Ensures (Trial.exec c failures) (pure (.ok a)) s (Tries failures s 0 Kept Done) :=
  ensures_pure ⟨fun x hx hlt => by omega, rfl, hdone⟩

theorem tries_andThen {p : ServerM n (IoResult α)} {f : α → ServerM n (IoResult β)} {i j : ℕ}
    (hp : Ensures (Trial.exec c failures) p s (Tries failures s i Kept Done))
    (hf : ∀ a s', s'.tried = s.tried + i → Done a s'.world →
      Ensures (Trial.exec c failures) (f a) s' (Tries failures s' j Kept Done')) :
    Ensures (Trial.exec c failures) (andThen p f) s (Tries failures s (i + j) Kept Done') := by
  refine ensures_andThen hp (fun error s' h => ?_) fun a s' h => ?_
  · obtain ⟨hfail, hkept⟩ := h
    rw [Tries, ← Nat.add_assoc, pass_add]
    exact ⟨fun hpass => hfail hpass.1, hkept⟩
  · obtain ⟨hpass, htried, hdone⟩ := h
    refine (hf a s' htried hdone).mono fun result s'' h => ?_
    rcases result with error | b
    · obtain ⟨hfail, hkept⟩ := h
      rw [htried] at hfail
      rw [Tries, ← Nat.add_assoc, pass_add]
      exact ⟨fun hpass => hfail hpass.2, hkept⟩
    · obtain ⟨hpass', htried', hdone'⟩ := h
      rw [htried] at hpass' htried'
      rw [Tries, ← Nat.add_assoc, pass_add]
      exact ⟨⟨hpass, hpass'⟩, htried', hdone'⟩

end Rules

section Preparing
open ServerM
variable {n : ℕ} {c : Clock} {failures : Failures} {s : Trial n} {w : World n}
  {path target source : Path} {Kept : World n → Prop}

theorem ensures_now_bind {α : Type} {f : Clock → ServerM n α} {Q : α → Trial n → Prop}
    (hf : Ensures (Trial.exec c failures) (f c) s Q) :
    Ensures (Trial.exec c failures) (now >>= f) s Q := by
  obtain ⟨a, s', hrun, hQ⟩ := hf
  exact ⟨a, s', hrun, hQ⟩

theorem ensures_setEngineFile_bind {α : Type} {file : Option File} {f : Unit → ServerM n α}
    {Q : α → Trial n → Prop} (hf : Ensures (Trial.exec c failures) (f ())
      { s with world := { s.world with engineFile := file } } Q) :
    Ensures (Trial.exec c failures) (setEngineFile file >>= f) s Q := by
  obtain ⟨a, s', hrun, hQ⟩ := hf
  exact ⟨a, s', hrun, hQ⟩

theorem tries_fileMut {file : File} (hs : s.world.engineFile = some file) :
    Ensures (Trial.exec c failures) AofEngine.fileMut s
      (Tries failures s 0 Kept fun file' w' => file' = file ∧ w' = s.world) := by
  rcases s with ⟨⟨kv, files, engineFile, sent⟩, tried⟩
  dsimp only at hs
  subst hs
  exact ⟨.ok file, _, rfl, fun x hx hlt => by omega, rfl, rfl, rfl⟩

/-- Two syncs of a file that is open. -/
theorem tries_flush_sync {file : File} {w' : World n} (hs : s.world = w') (hkept : Kept w') :
    Ensures (Trial.exec c failures)
      (andThen (onFile (.flush file)) fun _ => onFile (.syncAll file)) s
      (Tries failures s (1 + 1) Kept fun _ w => w = w') := by
  subst hs
  have hflush : Ensures (Trial.exec c failures) (onFile (.flush file)) s
      (Tries failures s 1 Kept fun _ w => w = s.world) := tries_onFile rfl hkept rfl
  refine tries_andThen hflush ?_
  intro _ s' _ hs'
  exact tries_onFile rfl (hs' ▸ hkept) hs'

theorem tries_flush (hs : s.world.engineFile = some ⟨path⟩) (hkept : Kept s.world) :
    Ensures (Trial.exec c failures) AofEngine.flush s
      (Tries failures s (0 + (1 + 1)) Kept fun _ w => w = s.world) := by
  refine tries_andThen (tries_fileMut hs) ?_
  rintro file s' - ⟨-, hs'⟩
  exact tries_flush_sync hs' hkept

/-- The records are written to the new file one after the other. -/
theorem tries_writeEntries {files : FileSystem} (entries : List DbSnapshotEntry) (content : Bytes)
    (hkept : ∀ bytes, Kept (w.withFiles (files.put target bytes)))
    (hs : s.world = w.withFiles (files.put target content)) :
    Ensures (Trial.exec c failures) (writeEntries ⟨target⟩ entries) s
      (Tries failures s entries.length Kept fun _ w' =>
        w' = w.withFiles (files.put target (content ++ logBytes (entries.map Record.ofEntry)))) := by
  induction entries generalizing content s with
  | nil =>
    refine tries_pure ?_
    rw [List.map_nil, logBytes_nil, List.append_nil]
    exact hs
  | cons entry entries ih =>
    have hfiles : s.world.files = files.put target content := by
      rw [hs]
      rfl
    have hexec : FileSystem.exec (.writeAll ⟨target⟩ (snapshotEntryToRespBytes c entry))
        s.world.files = (.ok (), files.put target (content ++ (Record.ofEntry entry).bytes)) := by
      rw [hfiles, FileSystem.exec, RustKV.put_self, Option.getD_some, put_put,
        snapshotEntryToRespBytes_ofEntry]
    have hwrite : Ensures (Trial.exec c failures)
        (onFile (.writeAll ⟨target⟩ (snapshotEntryToRespBytes c entry))) s
        (Tries failures s 1 Kept fun _ w' =>
          w' = w.withFiles (files.put target (content ++ (Record.ofEntry entry).bytes))) :=
      tries_onFile hexec (hs ▸ hkept content) (by rw [hs]; rfl)
    rw [List.length_cons, Nat.add_comm]
    refine ensures_now_bind (tries_andThen hwrite ?_)
    intro _ s' _ hs'
    have hrest := ih (content ++ (Record.ofEntry entry).bytes) hs'
    rw [List.append_assoc] at hrest
    exact hrest

theorem tries_writeRewriteFile (snapshot : DbSnapshot) (hkept : Kept s.world)
    (hput : ∀ bytes, Kept (s.world.withFiles (s.world.files.put target bytes))) :
    Ensures (Trial.exec c failures) (writeRewriteFile target snapshot) s
      (Tries failures s (1 + (snapshot.entries.length + (1 + 1))) Kept fun _ w' =>
        w' = s.world.withFiles (s.world.files.put target (rewritten snapshot))) := by
  have hopen : Ensures (Trial.exec c failures) (onFile (.openTruncate target)) s
      (Tries failures s 1 Kept fun file w' =>
        file = (⟨target⟩ : File) ∧ w' = s.world.withFiles (s.world.files.put target [])) :=
    tries_onFile rfl hkept ⟨rfl, rfl⟩
  refine tries_andThen hopen ?_
  rintro _ s' - ⟨rfl, hs'⟩
  refine tries_andThen (tries_writeEntries snapshot.entries [] hput hs') ?_
  intro _ s'' _ hs''
  exact tries_flush_sync hs'' (hput _)

theorem forgiven_none : Forgiven none := by
  rintro _ ⟨⟩

theorem ensures_removeFileIfExists : Ensures (Trial.exec c failures) (removeFileIfExists target) s
    fun result s' => s'.tried = s.tried + 1 ∧
      (∃ files, s'.world = s.world.withFiles files ∧
        ∀ p, p ≠ target → files p = s.world.files p) ∧
      (Forgiven (failures s.tried) ∧ result = .ok () ∨
        ¬ Forgiven (failures s.tried) ∧ ∃ error, result = .error error) := by
  refine ensures_onFile_bind (fun error hfail => ?_) fun hpass => ?_
  · have hforgiven : Forgiven (failures s.tried) ↔ error.kind = .notFound := by
      simp [Forgiven, hfail]
    by_cases hkind : error.kind = .notFound
    · simp only [hkind, if_true]
      exact ensures_pure ⟨rfl, ⟨s.world.files, rfl, fun _ _ => rfl⟩, Or.inl ⟨hforgiven.mpr hkind, rfl⟩⟩
    · simp only [hkind, if_false]
      exact ensures_pure ⟨rfl, ⟨s.world.files, rfl, fun _ _ => rfl⟩,
        Or.inr ⟨fun h => hkind (hforgiven.mp h), error, rfl⟩⟩
  · have hforgiven : Forgiven (failures s.tried) := hpass ▸ forgiven_none
    cases hf : s.world.files target with
    | none =>
      simp only [FileSystem.exec, hf]
      exact ensures_pure ⟨rfl, ⟨_, rfl, fun _ _ => rfl⟩, Or.inl ⟨hforgiven, rfl⟩⟩
    | some bytes =>
      simp only [FileSystem.exec, hf]
      exact ensures_pure ⟨rfl, ⟨_, rfl, fun p hp => Function.update_of_ne hp ..⟩,
        Or.inl ⟨hforgiven, rfl⟩⟩

theorem ensures_renameFileIfExists :
    Ensures (Trial.exec c failures) (renameFileIfExists source target) s fun result s' =>
      s'.tried = s.tried + 1 ∧
      (¬ Forgiven (failures s.tried) ∧ (∃ error, result = .error error) ∧ s'.world = s.world ∨
        Forgiven (failures s.tried) ∧ result = .ok false ∧ s'.world = s.world ∧
          (failures s.tried = none → s.world.files source = none) ∨
        failures s.tried = none ∧ result = .ok true ∧ ∃ bytes, s.world.files source = some bytes ∧
          s'.world = s.world.withFiles ((s.world.files.delete source).put target bytes)) := by
  refine ensures_onFile_bind (fun error hfail => ?_) fun hpass => ?_
  · have hforgiven : Forgiven (failures s.tried) ↔ error.kind = .notFound := by
      simp [Forgiven, hfail]
    by_cases hkind : error.kind = .notFound
    · simp only [hkind, if_true]
      exact ensures_pure ⟨rfl, Or.inr (Or.inl ⟨hforgiven.mpr hkind, rfl, rfl, by simp [hfail]⟩)⟩
    · simp only [hkind, if_false]
      exact ensures_pure ⟨rfl, Or.inl ⟨fun h => hkind (hforgiven.mp h), ⟨error, rfl⟩, rfl⟩⟩
  · cases hf : s.world.files source with
    | none =>
      simp only [FileSystem.exec, hf]
      exact ensures_pure ⟨rfl, Or.inr (Or.inl ⟨hpass ▸ forgiven_none, rfl, rfl, fun _ => trivial⟩)⟩
    | some bytes =>
      simp only [FileSystem.exec, hf]
      exact ensures_pure ⟨rfl, Or.inr (Or.inr ⟨hpass, rfl, bytes, rfl, rfl⟩)⟩

end Preparing

section Replacing
open ServerM
variable {n : ℕ} {c : Clock} {failures : Failures} {s : Trial n} {path temp backup : Path}
  {old : Option Bytes} {new : Bytes}

/-- From the `i`-th operation on: the log is renamed, the new file cannot take its place, and the
log cannot be renamed back. -/
def Strands (failures : Failures) (i : ℕ) : Prop :=
  Forgiven (failures i) ∧ failures (i + 1) = none ∧ failures (i + 2) ≠ none ∧
    failures (i + 3) ≠ none

/-- From the `i`-th operation on: the new file takes the place of the log. -/
def Renews (failures : Failures) (i : ℕ) : Prop :=
  Forgiven (failures i) ∧ Forgiven (failures (i + 1)) ∧ failures (i + 2) = none

/-- Where the new file takes the place of the log, a backup is removed if there is one. -/
def renewTries (failures : Failures) (i : ℕ) (old : Option Bytes) : ℕ :=
  if old.isSome ∧ failures (i + 1) = none then 4 else 3

/-- The path of the log names the old file, the new one, or none. -/
inductive Replaced (failures : Failures) (path : Path) (old : Option Bytes) (new : Bytes) (i : ℕ) :
    FileSystem → ℕ → Prop
  | kept {files : FileSystem} {tried : ℕ} : ¬ Renews failures i →
      (Strands failures i → old = none) → files path = old →
      Replaced failures path old new i files tried
  | renewed {files : FileSystem} {tried : ℕ} : Renews failures i → files path = some new →
      tried = i + renewTries failures i old → Replaced failures path old new i files tried
  | stranded {files : FileSystem} : Strands failures i → files path = none →
      Replaced failures path old new i files (i + 4)

theorem not_renews_of_strands {i : ℕ} (h : Strands failures i) : ¬ Renews failures i :=
  fun h' => h.2.2.1 h'.2.2

theorem exec_rename {files : FileSystem} (hnew : files temp = some new) :
    FileSystem.exec (.rename temp path) files = (.ok (), (files.delete temp).put path new) := by
  rw [FileSystem.exec, hnew]

theorem ensures_replaceAofFile (htemp : temp ≠ path) (hbackup : backup ≠ path)
    (hne : temp ≠ backup) (hold : s.world.files path = old)
    (hnew : s.world.files temp = some new) :
    Ensures (Trial.exec c failures) (replaceAofFile path temp backup) s fun _ s' =>
      s'.world = s.world.withFiles s'.world.files ∧
        Replaced failures path old new s.tried s'.world.files s'.tried := by
  -- a leftover backup is removed
  refine ensures_andThen ensures_removeFileIfExists ?_ ?_
  · rintro error s₁ ⟨-, ⟨files, hworld, hfiles⟩, ⟨-, hok⟩ | ⟨hfail, -⟩⟩
    · cases hok
    · refine ⟨by rw [hworld]; rfl, .kept (fun h => hfail h.1) (fun h => absurd h.1 hfail) ?_⟩
      rw [hworld]
      exact (hfiles path hbackup.symm).trans hold
  rintro ⟨⟩ s₁ ⟨htried₁, ⟨files, hworld₁, hfiles⟩, ⟨hremoved, -⟩ | ⟨-, _, herror⟩⟩
  swap
  · cases herror
  have hold₁ : s₁.world.files path = old := by
    rw [hworld₁]
    exact (hfiles path hbackup.symm).trans hold
  have hnew₁ : s₁.world.files temp = some new := by
    rw [hworld₁]
    exact (hfiles temp hne).trans hnew
  -- the old file is renamed to the backup, if there is one
  refine ensures_andThen ensures_renameFileIfExists ?_ ?_
  · rintro error s₂ ⟨-, ⟨hfail, -, hworld₂⟩ | ⟨-, hok, -⟩ | ⟨-, hok, -⟩⟩
    · rw [htried₁] at hfail
      refine ⟨by rw [hworld₂, hworld₁]; rfl, .kept (fun h => hfail h.2.1) (fun h => ?_) ?_⟩
      · exact absurd (h.2.1 ▸ forgiven_none) hfail
      · rw [hworld₂, hold₁]
    · cases hok
    · cases hok
  rintro backedUp s₂ ⟨htried₂, ⟨-, ⟨_, herror⟩, -⟩ | ⟨hforgiven, hok, hworld₂, hmissing⟩ |
    ⟨hpass₁, hok, bytes, hbytes, hworld₂⟩⟩
  · cases herror
  · -- nothing has been set aside
    cases hok
    rw [htried₁] at hforgiven hmissing
    refine ensures_onFile_bind (fun error hfail => ?_) fun hpass => ?_
    · rw [htried₂, htried₁] at hfail
      refine ensures_pure ⟨by rw [hworld₂, hworld₁]; rfl, .kept (fun h => ?_) (fun h => ?_) ?_⟩
      · rw [h.2.2] at hfail
        cases hfail
      · rw [← hold₁]
        exact hmissing h.2.1
      · rw [hworld₂, hold₁]
    · rw [htried₂, htried₁] at hpass
      rw [hworld₂, exec_rename hnew₁]
      refine ensures_pure ⟨by rw [hworld₁]; rfl, .renewed ⟨hremoved, hforgiven, hpass⟩ ?_ ?_⟩
      · exact RustKV.put_self ..
      · have hthree : ¬ (old.isSome ∧ failures (s.tried + 1) = none) := by
          intro ⟨hsome, hnone⟩
          rw [← hold₁, hmissing hnone] at hsome
          cases hsome
        rw [renewTries, if_neg hthree, htried₂, htried₁]
  · -- the old file has been set aside
    cases hok
    rw [htried₁] at hpass₁
    have hold₂ : old = some bytes := hold₁.symm.trans hbytes
    have hnew₂ : s₂.world.files temp = some new := by
      rw [hworld₂]
      exact ((put_at_ne hne.symm bytes).trans (delete_at_ne htemp.symm)).trans hnew₁
    refine ensures_onFile_bind (fun error hfail => ?_) fun hpass => ?_
    · -- the new file cannot be renamed, so the backup is renamed back
      rw [htried₂, htried₁] at hfail
      refine ensures_onFile_bind (fun error' hfail' => ?_) fun hpass' => ?_
      · -- and neither can the backup: no file is left at the path
        dsimp only at hfail'
        rw [htried₂, htried₁] at hfail'
        have hstrands : Strands failures s.tried :=
          ⟨hremoved, hpass₁, by rw [hfail]; simp, by rw [hfail']; simp⟩
        have htried : s₂.tried + 1 + 1 = s.tried + 4 := by omega
        refine ensures_pure ⟨by rw [hworld₂, hworld₁]; rfl, ?_⟩
        rw [htried]
        refine .stranded hstrands ?_
        rw [hworld₂]
        exact (put_at_ne hbackup bytes).trans delete_self
      · dsimp only at hpass'
        rw [htried₂, htried₁] at hpass'
        have hset : s₂.world.files backup = some bytes := by
          rw [hworld₂]
          exact RustKV.put_self ..
        rw [exec_rename hset]
        refine ensures_pure ⟨by rw [hworld₂, hworld₁]; rfl, .kept (fun h => ?_) (fun h => ?_) ?_⟩
        · rw [h.2.2] at hfail
          cases hfail
        · exact absurd hpass' h.2.2.2
        · rw [hold₂]
          exact RustKV.put_self ..
    · -- the new file is in place, whether or not the backup is removed
      rw [htried₂, htried₁] at hpass
      rw [exec_rename hnew₂]
      refine ensures_removeFileIfExists.mono ?_
      rintro _ s₃ ⟨htried₃, ⟨files', hworld₃, hfiles'⟩, -⟩
      refine ⟨by rw [hworld₃, hworld₂, hworld₁]; rfl,
        .renewed ⟨hremoved, hpass₁ ▸ forgiven_none, hpass⟩ ?_ ?_⟩
      · rw [hworld₃]
        exact (hfiles' path hbackup.symm).trans (RustKV.put_self ..)
      · have hfour : old.isSome ∧ failures (s.tried + 1) = none := ⟨by rw [hold₂]; rfl, hpass₁⟩
        rw [renewTries, if_pos hfour, htried₃, htried₂, htried₁]

end Replacing

section Main
open ServerM
variable {n k : ℕ} {hash : String → UInt64} {c c' T : Clock} {failures : Failures} {w : World n}
  {path : Path} {m : TimedMap String Bytes Instant} {snapshot : DbSnapshot} {files : FileSystem}

/-- Everything before the replacement passes, for a snapshot of `count` entries. -/
def Prepared (failures : Failures) (count : ℕ) : Prop :=
  Forgiven (failures 0) ∧ Pass failures 1 (count + 6)

/-- The engine can append again, to an empty file. -/
def Stranded (failures : Failures) (count : ℕ) : Prop :=
  Prepared failures count ∧ Strands failures (count + 6) ∧ failures (count + 10) = none

/-- The engine can append again, to the new file. -/
def Renewed (failures : Failures) (count : ℕ) (old : Option Bytes) : Prop :=
  Prepared failures count ∧ Renews failures (count + 6) ∧
    failures (count + 6 + renewTries failures (count + 6) old) = none

/-- These failures leave a complete log behind: the log is not replaced by an empty file, if there
is anything to restore, and if the new file takes its place, its timestamps lie ahead. -/
def Survives (failures : Failures) (T : Clock) (m : TimedMap String Bytes Instant)
    (snapshot : DbSnapshot) (old : Option Bytes) : Prop :=
  (Stranded failures snapshot.entries.length → ∀ key, view T.instant m key = none) ∧
  (Renewed failures snapshot.entries.length old →
    ∀ e ∈ snapshot.entries, ∀ ts ∈ e.expireAtMs, Ahead T ts)

/-- The log that appends extend restores `m`. -/
def Continues (k : ℕ) (hash : String → UInt64) (path : Path) (T : Clock)
    (m : TimedMap String Bytes Instant) (w : World n) : Prop :=
  ∀ file, w.engineFile = some file → file = ⟨path⟩ ∧ Restores k hash path T w.files m

theorem restores_empty (h : files path = some []) :
    Restores k hash path T files m ↔ ∀ key, view T.instant m key = none := by
  obtain ⟨db, hload, hs⟩ := @load_log k hash _ T _ [] h
    (by unfold Loadable; decide) trivial
  have hclear : view T.instant (db.toMap hash) = clear := hs.view_eq
  rw [restores_iff]
  constructor
  · rintro ⟨db', hload', hsame⟩ key
    cases hload.symm.trans hload'
    have hkey := hsame key
    rw [hclear] at hkey
    exact Option.map_eq_none_iff.mp hkey.symm
  · intro hnone
    refine ⟨db, hload, fun key => ?_⟩
    rw [hclear, hnone key]
    rfl

/-- A file that is opened for appending is created where it is missing. -/
theorem restores_reopened :
    Restores k hash path T (files.put path ((files path).getD [])) m ↔
      Restores k hash path T files m := by
  have hput := RustKV.put_self files path ((files path).getD [])
  cases hf : files path with
  | some bytes =>
    rw [hf] at hput
    rw [restores_iff, restores_iff, load_congr (hput.trans hf.symm)]
  | none =>
    rw [hf] at hput
    rw [restores_missing hf, restores_empty hput]

theorem survives_of_not_prepared {old : Option Bytes}
    (h : ¬ Prepared failures snapshot.entries.length) : Survives failures T m snapshot old :=
  ⟨fun hs => absurd hs.1 h, fun hr => absurd hr.1 h⟩

/-- Before the replacement the engine holds the old file. -/
theorem continues_of_kept (hopen : w.engineFile = some ⟨path⟩)
    (hlog : Restores k hash path T w.files m) (hfiles : files path = w.files path) :
    Continues k hash path T m (w.withFiles files) := by
  rintro file hfile
  cases hopen.symm.trans hfile
  refine ⟨rfl, restores_iff.mpr ?_⟩
  rw [show (w.withFiles files).files = files from rfl, load_congr hfiles]
  exact restores_iff.mp hlog

theorem Pass.mono {i j j' : ℕ} (h : Pass failures i j) (hle : j' ≤ j) : Pass failures i j' :=
  fun x hx hlt => h x hx (by omega)

/-- What the path of the log names after the replacement decides, if it can be opened again. -/
theorem restores_replaced_iff (h : BeforeRewrite k hash path c T w snapshot)
    (hprepared : Prepared failures snapshot.entries.length) {tried : ℕ}
    (hr : Replaced failures path (w.files path) (rewritten snapshot) (snapshot.entries.length + 6)
      files tried) (hpass : failures tried = none) :
    Restores k hash path T files (w.kv.db.toMap hash) ↔
      Survives failures T (w.kv.db.toMap hash) snapshot (w.files path) := by
  cases hr with
  | kept hrenews hstrands hpath =>
    have hlog := restores_iff.mp h.log
    rw [← load_congr hpath] at hlog
    refine iff_of_true (restores_iff.mpr hlog) ⟨fun hs => ?_, fun hr => absurd hr.2.1 hrenews⟩
    exact (restores_missing (hstrands hs.2.1)).mp h.log
  | renewed hrenews hpath htried =>
    rw [htried] at hpass
    rw [restores_rewritten h.snapshotOf h.later h.ahead h.loadable hpath]
    constructor
    · intro hahead
      exact ⟨fun hs => absurd hrenews (not_renews_of_strands hs.2.1), fun _ => hahead⟩
    · intro hs
      exact hs.2 ⟨hprepared, hrenews, hpass⟩
  | stranded hstrands hpath =>
    rw [restores_missing hpath]
    constructor
    · intro hnone
      exact ⟨fun _ => hnone, fun hr => absurd hr.2.1 (not_renews_of_strands hstrands)⟩
    · intro hs
      exact hs.1 ⟨hprepared, hstrands, hpass⟩

/-- If the log cannot be opened again, there is nothing to survive. -/
theorem survives_of_closed (h : BeforeRewrite k hash path c T w snapshot) {tried : ℕ}
    (hr : Replaced failures path (w.files path) (rewritten snapshot) (snapshot.entries.length + 6)
      files tried) (hfail : failures tried ≠ none) :
    Survives failures T (w.kv.db.toMap hash) snapshot (w.files path) := by
  cases hr with
  | kept hrenews hstrands hpath =>
    refine ⟨fun hs => ?_, fun hr => absurd hr.2.1 hrenews⟩
    exact (restores_missing (hstrands hs.2.1)).mp h.log
  | renewed hrenews hpath htried =>
    rw [htried] at hfail
    exact ⟨fun hs => absurd hrenews (not_renews_of_strands hs.2.1), fun hr => absurd hr.2.2 hfail⟩
  | stranded hstrands hpath =>
    exact ⟨fun hs => absurd hs.2.2 hfail, fun hr => absurd hr.2.1 (not_renews_of_strands hstrands)⟩

/-- A rewrite leaves a complete log behind exactly when its failures do. -/
theorem rewrite_failures_iff (h : BeforeRewrite k hash path c T w snapshot) (failures : Failures)
    (c' : Clock) : ∃ result s',
      (AofEngine.rewrite path snapshot).run (Trial.exec c' failures) ⟨w, 0⟩ = (some result, s') ∧
      (Continues k hash path T (w.kv.db.toMap hash) s'.world ↔
        Survives failures T (w.kv.db.toMap hash) snapshot (w.files path)) := by
  have htemp : rewriteTempPath path ≠ path := rewriteTempPath_ne
  have hearly {s : Trial n} (hprepared : ¬ Prepared failures snapshot.entries.length)
      {files : FileSystem} (hworld : s.world = w.withFiles files)
      (hfiles : files path = w.files path) :
      Continues k hash path T (w.kv.db.toMap hash) s.world ↔
        Survives failures T (w.kv.db.toMap hash) snapshot (w.files path) := by
    rw [hworld]
    exact iff_of_true (continues_of_kept h.isOpen h.log hfiles)
      (survives_of_not_prepared hprepared)
  refine ensures_andThen ensures_removeFileIfExists ?_ ?_
  · rintro error s₁ ⟨-, ⟨files, hworld, hfiles⟩, ⟨-, hok⟩ | ⟨hfail, -⟩⟩
    · cases hok
    · exact hearly (fun hp => hfail hp.1) hworld (hfiles path htemp.symm)
  rintro ⟨⟩ s₁ ⟨htried₁, ⟨files₁, hworld₁, hfiles₁⟩, ⟨hremoved, -⟩ | ⟨-, _, herror⟩⟩
  swap
  · cases herror
  have htried₁ : s₁.tried = 1 := htried₁
  have hworld₁ : s₁.world = w.withFiles files₁ := hworld₁
  have hpath₁ : files₁ path = w.files path := hfiles₁ path htemp.symm
  -- the new file is written
  have hwrite := @tries_writeRewriteFile _ c' failures s₁ (rewriteTempPath path)
    (fun w' => ∃ files, w' = w.withFiles files ∧ files path = w.files path) snapshot
    ⟨files₁, hworld₁, hpath₁⟩ fun bytes => ⟨_, by rw [hworld₁]; rfl,
      (put_at_ne htemp bytes).trans ((congrFun (congrArg World.files hworld₁) path).trans hpath₁)⟩
  refine ensures_andThen hwrite ?_ ?_
  · rintro error s₂ ⟨hfail, files, hworld, hfiles⟩
    refine hearly (fun hp => hfail ?_) hworld hfiles
    rw [htried₁]
    exact hp.2.mono (by omega)
  rintro ⟨⟩ s₂ ⟨hpass₂, htried₂, hworld₂⟩
  rw [htried₁] at hpass₂ htried₂
  rw [hworld₁] at hworld₂
  have hpath₂ : s₂.world.files path = w.files path := by
    rw [hworld₂]
    exact (put_at_ne htemp _).trans hpath₁
  have hnew₂ : s₂.world.files (rewriteTempPath path) = some (rewritten snapshot) := by
    rw [hworld₂]
    exact RustKV.put_self ..
  have hopen₂ : s₂.world.engineFile = some ⟨path⟩ := by
    rw [hworld₂]
    exact h.isOpen
  have hflush := @tries_flush _ c' failures _ _ (fun w' => w' = s₂.world) hopen₂ rfl
  refine ensures_andThen hflush ?_ ?_
  · rintro error s₃ ⟨hfail, hworld₃⟩
    refine hearly (fun hp => hfail ?_) (hworld₃.trans hworld₂) ?_
    · rw [htried₂]
      exact fun x hx hlt => hp.2 x (by omega) (by omega)
    · exact (put_at_ne htemp _).trans hpath₁
  rintro ⟨⟩ s₃ ⟨hpass₃, htried₃, hworld₃⟩
  rw [htried₂] at hpass₃ htried₃
  have htried₃ : s₃.tried = snapshot.entries.length + 6 := by omega
  have hprepared : Prepared failures snapshot.entries.length := by
    refine ⟨hremoved, fun x hx hlt => ?_⟩
    by_cases hx' : x < 1 + (1 + (snapshot.entries.length + (1 + 1)))
    · exact hpass₂ x hx hx'
    · exact hpass₃ x (by omega) (by omega)
  -- the engine is closed, and the new file put in the place of the log
  refine ensures_setEngineFile_bind (ensures_bind (ensures_replaceAofFile
    (s := { s₃ with world := { s₃.world with engineFile := none } }) htemp rewriteBackupPath_ne
    rewriteTempPath_ne_backup ((congrFun (congrArg World.files hworld₃) path).trans hpath₂)
    ((congrFun (congrArg World.files hworld₃) _).trans hnew₂)) ?_)
  rintro result s₄ ⟨hworld₄, hreplaced⟩
  dsimp only at hworld₄ hreplaced
  rw [htried₃] at hreplaced
  have hclosed : s₄.world.engineFile = none := by rw [hworld₄]; rfl
  -- the log is opened again
  refine ensures_onFile_bind (fun error hfail => ?_) fun hpass => ?_
  · have hdone : Continues k hash path T (w.kv.db.toMap hash) s₄.world ↔
        Survives failures T (w.kv.db.toMap hash) snapshot (w.files path) := by
      refine iff_of_true (fun file hfile => ?_)
        (survives_of_closed h hreplaced (by rw [hfail]; simp))
      rw [hclosed] at hfile
      cases hfile
    rcases result with _ | ⟨⟩ <;> exact ensures_pure hdone
  · have hdone : Continues k hash path T (w.kv.db.toMap hash)
        { s₄.world.withFiles (s₄.world.files.put path ((s₄.world.files path).getD [])) with
          engineFile := some ⟨path⟩ } ↔
        Survives failures T (w.kv.db.toMap hash) snapshot (w.files path) := by
      rw [← restores_replaced_iff h hprepared hreplaced hpass, ← restores_reopened]
      constructor
      · intro hcontinues
        exact (hcontinues ⟨path⟩ rfl).2
      · rintro hrestores file ⟨⟩
        exact ⟨rfl, hrestores⟩
    rcases result with _ | ⟨⟩ <;>
      exact ensures_setEngineFile_bind (ensures_pure hdone)

/-- The new file cannot take the place of the log, and the log cannot be renamed back. -/
def strandingFailures : Failures := fun i =>
  if i = 9 ∨ i = 10 then some ⟨.other, "Permission denied (os error 13)"⟩ else none

theorem rewrite_failures_iff_oneKey : ∃ result s',
    (AofEngine.rewrite samplePath oneKeySnapshot).run (Trial.exec ⟨1, 1⟩ strandingFailures)
      ⟨oneKey, 0⟩ = (some result, s') ∧
    (Continues 0 (fun _ => 0) samplePath ⟨2, 2⟩ (oneKey.kv.db.toMap fun _ => 0) s'.world ↔
      Survives strandingFailures ⟨2, 2⟩ (oneKey.kv.db.toMap fun _ => 0) oneKeySnapshot
        (oneKey.files samplePath)) :=
  rewrite_failures_iff (oneKey_before ⟨2, 2⟩ (by decide)) strandingFailures ⟨1, 1⟩

/-- The old log is left under the name of the backup, and the engine appends to an empty file. -/
theorem rewrite_failures_lose : ¬ ∀ (w : World 0) (snapshot : DbSnapshot) (c c' T : Clock)
    (failures : Failures) (result : IoResult Unit) (s' : Trial 0),
    BeforeRewrite 0 (fun _ => 0) samplePath c T w snapshot →
    (AofEngine.rewrite samplePath snapshot).run (Trial.exec c' failures) ⟨w, 0⟩ =
      (some result, s') →
    Continues 0 (fun _ => 0) samplePath T (w.kv.db.toMap fun _ => 0) s'.world := by
  intro hall
  rcases hrun : (AofEngine.rewrite samplePath oneKeySnapshot).run
    (Trial.exec ⟨1, 1⟩ strandingFailures) ⟨oneKey, 0⟩ with ⟨result, s'⟩
  have hend : (((AofEngine.rewrite samplePath oneKeySnapshot).run
      (Trial.exec ⟨1, 1⟩ strandingFailures) ⟨oneKey, 0⟩).1.isSome,
      ((AofEngine.rewrite samplePath oneKeySnapshot).run
        (Trial.exec ⟨1, 1⟩ strandingFailures) ⟨oneKey, 0⟩).2.world.files samplePath,
      ((AofEngine.rewrite samplePath oneKeySnapshot).run
        (Trial.exec ⟨1, 1⟩ strandingFailures) ⟨oneKey, 0⟩).2.world.engineFile) =
      (true, some [], some ⟨samplePath⟩) := by decide +kernel
  rw [hrun] at hend
  obtain ⟨hsome, hend⟩ := Prod.mk.inj hend
  obtain ⟨hempty, hopen⟩ := Prod.mk.inj hend
  obtain ⟨result, rfl⟩ := Option.isSome_iff_exists.mp hsome
  have hcontinues := hall oneKey oneKeySnapshot ⟨1, 1⟩ ⟨1, 1⟩ ⟨2, 2⟩ strandingFailures result s'
    (oneKey_before ⟨2, 2⟩ (by decide)) hrun
  have hk := (restores_empty hempty).mp (hcontinues _ hopen).2 "k"
  rw [oneKey_toMap, view_apply, TimedMap.put_self] at hk
  cases hk

end Main

end RustKV

import RustKV.AofDecoding
import RustKV.AofRewrite
import RustKV.ShardedBalance

/-! A rewritten log and the store that it is taken from. A deadline is written as a Unix
timestamp in whole milliseconds and counted from the clock again at a replay: of two
milliseconds, what is lost stays below one at each rounding down. -/
namespace RustKV
open Decimal TimedMap Tasks

section Rounding
variable {t T : Clock} {d : Instant} {ts : UInt64} {remaining : Duration}

/-- A deadline that lies ahead and that both of its representations can hold: as a Unix
timestamp in milliseconds, and as an `Instant` with the millisecond after it. -/
structure DeadlineFits (t : Clock) (d : Instant) : Prop where
  ahead : t.instant < d
  unix : t.unix + (d - t.instant) < 2^64 * 10^6
  instant : d + 10^6 ≤ instantLimit

/-- How a snapshot writes a deadline. -/
def deadlineMs (t : Clock) (d : Instant) : UInt64 :=
  unixMsAfter (currentUnixMs t) (d - t.instant).toNat

/-- The timestamp is reached at most two milliseconds before the deadline, and not after it. -/
theorem deadlineMs_bounds (h0 : 0 ≤ t.unix) (h : DeadlineFits t d) :
    ((deadlineMs t d).toNat : ℤ) * 10^6 ≤ t.unix + (d - t.instant) ∧
      t.unix + (d - t.instant) < ((deadlineMs t d).toNat + 2 : ℤ) * 10^6 := by
  obtain ⟨remaining, hremaining⟩ := Int.eq_ofNat_of_zero_le (sub_nonneg.mpr h.ahead.le)
  have hunix := h.unix
  rw [hremaining] at hunix ⊢
  have hms := t.ms_bounds h0
  have hsum : t.ms + remaining / 10^6 ≤ u64Max := by
    unfold u64Max
    omega
  have hnow : (currentUnixMs t).toNat = t.ms := by
    have hclock : (t.sinceEpoch.map Duration.asMillis).getD 0 = t.ms := by
      rw [Clock.sinceEpoch, if_pos h0]
      rfl
    have hle : t.ms ≤ u64Max := by omega
    rw [currentUnixMs, hclock, min_eq_left hle, u64_toNat_ofNat hle]
  have hts : (deadlineMs t d).toNat = t.ms + remaining / 10^6 := by
    rw [deadlineMs, unixMsAfter, hnow, hremaining, Int.toNat_natCast, Duration.asMillis,
      min_eq_left hsum, u64_toNat_ofNat hsum]
  rw [hts]
  push_cast
  omega

/-- A deadline that is read back differs from the original one by less than two milliseconds. -/
theorem near_of_until (h0 : 0 ≤ t.unix) (hT : t.Advances T) (h : DeadlineFits t d)
    (hrem : durationUntilUnixMs T (deadlineMs t d) = some remaining) :
    |T.after remaining - d| < 2 * 10^6 ∧ T.after remaining < instantLimit ∧ T.instant < d := by
  have hbounds := deadlineMs_bounds h0 h
  have hlimit := h.instant
  have h0T : 0 ≤ T.unix := h0.trans hT.unix_le
  have hms := T.ms_bounds h0T
  rw [durationUntilUnixMs_eq T h0T] at hrem
  split_ifs at hrem with hts
  obtain ⟨δ, rfl⟩ := hT
  cases hrem
  generalize (deadlineMs t d).toNat = ts at hbounds hts ⊢
  generalize (Clock.mk (t.instant + δ) (t.unix + δ)).ms = now at hms hts ⊢
  have hafter : Clock.after ⟨t.instant + δ, t.unix + δ⟩ ((ts - now) * 10^6) =
      t.instant + δ + (ts - now : ℤ) * 10^6 := by
    rw [Clock.after]
    push_cast [Nat.cast_sub (show now ≤ ts by omega)]
    rfl
  have hlt : (now : ℤ) + 1 ≤ ts := by omega
  obtain ⟨hle, hge⟩ := hbounds
  obtain ⟨hnow, hnext⟩ := hms
  rw [hafter, abs_lt]
  dsimp only at hnow hnext ⊢
  refine ⟨⟨?_, ?_⟩, ?_, ?_⟩ <;> linarith

/-- A deadline is not read back only when it is less than two milliseconds ahead. -/
theorem lt_of_until_none (h0 : 0 ≤ t.unix) (hT : t.Advances T) (h : DeadlineFits t d)
    (hrem : durationUntilUnixMs T (deadlineMs t d) = none) : d < T.instant + 2 * 10^6 := by
  have hbounds := deadlineMs_bounds h0 h
  have h0T : 0 ≤ T.unix := h0.trans hT.unix_le
  have hms := T.ms_bounds h0T
  have hts := (durationUntilUnixMs_eq_none_iff T h0T _).mp hrem
  have hle : ((deadlineMs t d).toNat : ℤ) ≤ T.ms := by exact_mod_cast hts
  obtain ⟨δ, rfl⟩ := hT
  dsimp only at hms ⊢
  linarith

end Rounding

section Reading
variable {n : ℕ} {hash : String → UInt64} {path : Path} {c : Clock} {files : FileSystem}
  {log : List Record}
open ServerM

theorem loopReads_logBytes (hkeys : ∀ r ∈ log, KeysFit r.command)
    (hlen : (logBytes log).length ≤ isizeMax) :
    LoopReads (logBytes log) (log.map Record.command) := by
  induction log with
  | nil => exact .done
  | cons r log ih =>
    obtain ⟨hr, hlog⟩ := List.forall_mem_cons.mp hkeys
    rw [logBytes_cons] at hlen ⊢
    apply LoopReads.record hlen hr
    apply ih hlog
    rw [List.length_append] at hlen
    omega

theorem replayEach_commands :
    replayEach (n := n) hash (log.map Record.command) = onDb (replayAll hash log) := by
  induction log with
  | nil => rfl
  | cons r log ih => rw [List.map_cons, replayEach, ih, onDb_replayAll_cons]

/-- A file of records that any allocation can hold is loaded if the deadlines fit. -/
theorem load_logBytes (hfile : files path = some (logBytes log))
    (hkeys : ∀ r ∈ log, KeysFit r.command) (hlen : (logBytes log).length ≤ isizeMax)
    (hfits : ReplayFits c clear log) : ∃ db, load n hash path c files = (some (.ok ()), db) ∧
      Simulates c hash db (replay c clear log) := by
  obtain ⟨db, hs, hrun⟩ := @replayAll_spec n hash _ _ _ log (simulates_new (c := c)) hfits
  refine ⟨db, ?_, hs⟩
  have hreads := @LoopReads.replayRest_eq n hash _ _ (loopReads_logBytes hkeys hlen) _ le_rfl
  rw [load, loadAndReplay_present hfile, hreads, replayEach_commands, World.run_onDb]
  exact hrun

end Reading

section Restored
variable {t T : Clock} {m : TimedMap String Bytes Instant} {key : String} {e : Entry}
  {entries : List DbSnapshotEntry}

/-- No deadline where there was none, and otherwise one within two milliseconds. -/
def Near : Option Instant → Option Instant → Prop
  | none, none => True
  | some d, some d' => |d' - d| < 2 * 10^6
  | _, _ => False

/-- `m'` restores `m` at the time `T`: its keys are keys of `m`, with the same values and close
deadlines, and a key of `m` is missing only if its deadline is less than two milliseconds ahead. -/
structure RestoredAt (T : Clock) (m m' : TimedMap String Bytes Instant) : Prop where
  sound : ∀ key e', view T.instant m' key = some e' →
    ∃ e, view T.instant m key = some e ∧ e'.value = e.value ∧ Near e.expireAt e'.expireAt
  complete : ∀ key e, view T.instant m key = some e →
    (∀ d ∈ e.expireAt, T.instant + 2 * 10^6 ≤ d) → (view T.instant m' key).isSome

/-- The deadlines of the entries that are alive fit. -/
def DeadlinesFit (t : Clock) (m : TimedMap String Bytes Instant) : Prop :=
  ∀ key e, view t.instant m key = some e → ∀ d ∈ e.expireAt, DeadlineFits t d

theorem restored_snapshotEntry : (snapshotEntry t key e).restored T =
    match e.expireAt with
    | none => some ⟨e.value, none⟩
    | some d => (durationUntilUnixMs T (deadlineMs t d)).map fun remaining =>
        ⟨e.value, some (T.after remaining)⟩ := by
  rcases e with ⟨value, _ | d⟩ <;> rfl

/-- What a replay makes of the record of an entry. -/
theorem near_of_restored (h0 : 0 ≤ t.unix) (hT : t.Advances T)
    (hfits : ∀ d ∈ e.expireAt, DeadlineFits t d) {e' : Entry}
    (h : (snapshotEntry t key e).restored T = some e') :
    alive T.instant e ∧ e'.value = e.value ∧ Near e.expireAt e'.expireAt := by
  rw [restored_snapshotEntry] at h
  rcases e with ⟨value, _ | d⟩
  · cases h
    exact ⟨rfl, rfl, trivial⟩
  · obtain ⟨remaining, hrem, rfl⟩ := Option.map_eq_some_iff.mp h
    obtain ⟨hnear, -, hlt⟩ := near_of_until h0 hT (hfits d rfl) hrem
    refine ⟨?_, rfl, hnear⟩
    rw [alive_iff]
    rintro _ ⟨⟩
    exact hlt

theorem replayFits_snapshot (h0 : 0 ≤ t.unix) (hT : t.Advances T)
    (hsnap : ShardedDatabase.SnapshotOf t m entries) (hfits : DeadlinesFit t m)
    {m' : TimedMap String Bytes Instant} : ReplayFits T m' (entries.map Record.ofEntry) := by
  rw [replayFits_entries]
  intro e he ts hts remaining hrem
  obtain ⟨entry, hentry, heq⟩ := (hsnap.mem_iff e).mp he
  rw [heq] at hts
  obtain ⟨d, hd, rfl⟩ := Option.map_eq_some_iff.mp hts
  exact (near_of_until h0 hT (hfits e.key entry hentry d hd) hrem).2.1

/-- The entries of a snapshot, replayed on an empty map. -/
theorem restoredAt_replay (h0 : 0 ≤ t.unix) (hT : t.Advances T)
    (hsnap : ShardedDatabase.SnapshotOf t m entries) (hfits : DeadlinesFit t m) :
    RestoredAt T m (replay T clear (entries.map Record.ofEntry)) := by
  have hreplay {key : String} {e : Entry} (he : view t.instant m key = some e) :
      replay T clear (entries.map Record.ofEntry) key = (snapshotEntry t key e).restored T :=
    replay_entries_of_mem (e := snapshotEntry t key e) hsnap.ascending
      ((hsnap.mem_iff _).mpr ⟨e, he, rfl⟩)
  have hmissing {key : String} (hnone : view t.instant m key = none) :
      replay T clear (entries.map Record.ofEntry) key = none := by
    refine replay_entries_of_ne fun e he hkey => ?_
    obtain ⟨entry, hentry, -⟩ := (hsnap.mem_iff e).mp he
    rw [hkey, hnone] at hentry
    cases hentry
  refine ⟨fun key e' he' => ?_, fun key e he hfar => ?_⟩
  · obtain ⟨he', -⟩ := view_eq_some_iff.mp he'
    cases hview : view t.instant m key with
    | none =>
      rw [hmissing hview] at he'
      cases he'
    | some e =>
      rw [hreplay hview] at he'
      obtain ⟨halive, hvalue, hnear⟩ := near_of_restored h0 hT (hfits key e hview) he'
      exact ⟨e, view_eq_some_iff.mpr ⟨(view_eq_some_iff.mp hview).1, halive⟩, hvalue, hnear⟩
  · obtain ⟨hkey, halive⟩ := view_eq_some_iff.mp he
    have hview : view t.instant m key = some e :=
      view_eq_some_iff.mpr ⟨hkey, alive_of_le hT.instant_le halive⟩
    -- the timestamp lies ahead, as the deadline is at least two milliseconds away
    have hsome : ∃ e', (snapshotEntry t key e).restored T = some e' := by
      rw [restored_snapshotEntry]
      rcases hd : e.expireAt with _ | d
      · exact ⟨_, rfl⟩
      · dsimp only
        cases hrem : durationUntilUnixMs T (deadlineMs t d) with
        | none =>
          have hlt := lt_of_until_none h0 hT (hfits key e hview d hd) hrem
          exact absurd (hfar d hd) (not_le.mpr hlt)
        | some remaining => exact ⟨_, rfl⟩
    obtain ⟨e', he'⟩ := hsome
    rw [view_apply, hreplay hview, he', Option.filter_some, if_pos (alive_restored he')]
    rfl

end Restored

section Main
variable {ι : Type} [DecidableEq ι] {n k l : ℕ} {hash hash' : String → UInt64}
  {calls : ι → DbCall} {ticks : (ι → DbStatus n) → Clock → Clock → Prop} {cfg : DbConfig ι n}
  {c c' t T : Clock} {path : Path}

/-- The file holds one record for each key that is alive, in strictly ascending order. -/
def OneRecordEach (t : Clock) (m : TimedMap String Bytes Instant) (bytes : Bytes) : Prop :=
  ∃ entries : List DbSnapshotEntry,
    bytes = (entries.map (snapshotEntryToRespBytes t)).flatten ∧
    (entries.map DbSnapshotEntry.key).Pairwise (· < ·) ∧
    ∀ key, key ∈ entries.map DbSnapshotEntry.key ↔ (view t.instant m key).isSome

theorem oneRecordEach_rewritten {m : TimedMap String Bytes Instant} {snapshot : DbSnapshot}
    (hsnap : ShardedDatabase.SnapshotOf t m snapshot.entries) :
    OneRecordEach t m (rewritten snapshot) := by
  refine ⟨snapshot.entries, ?_, List.pairwise_map.mpr hsnap.ascending, fun key => ?_⟩
  · rw [rewritten, logBytes, List.map_map]
    exact congrArg List.flatten (List.map_congr_left fun e _ =>
      (snapshotEntryToRespBytes_ofEntry t e).symm)
  · rw [List.mem_map]
    constructor
    · rintro ⟨e, he, rfl⟩
      obtain ⟨entry, hentry, -⟩ := (hsnap.mem_iff e).mp he
      rw [hentry]
      rfl
    · intro hlive
      obtain ⟨entry, hentry⟩ := Option.isSome_iff_exists.mp hlive
      exact ⟨snapshotEntry t key entry, (hsnap.mem_iff _).mpr ⟨entry, hentry, rfl⟩, rfl⟩

/-- A key without a deadline, one with a distant deadline, and one with a short life. -/
def livesCalls : Fin 3 → DbCall :=
  ![.op (.set "a" [1] none), .op (.set "b" [2] (some (10 * 10^9))), .op (.set "c" [3] (some 5))]

def livesPlay : Option (List (Label (Fin 3)) × DbConfig (Fin 3) 0) :=
  dbPlay 0 (fun _ => 0) livesCalls (fun _ _ _ => True) (fun _ _ => True)
    [.start Three.first 8, .start Three.second 8, .start Three.third 8]

theorem livesPlay_entries : (livesPlay.map fun (_, cfg) => (cfg.shared.db.shards 0).entries.map
    fun p => (p.1, p.2.value, p.2.expireAt)) =
      some [("c", [3], some 5), ("b", [2], some (10 * 10^9)), ("a", [1], none)] := by decide +kernel

end Main

end RustKV

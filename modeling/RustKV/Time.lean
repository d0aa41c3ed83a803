import Mathlib.Data.Nat.Notation
import Mathlib.Data.Int.Notation
import Mathlib.Tactic.Common
import Mathlib.Tactic.Linarith
import Mathlib.Tactic.NormNum

/-! Time as the program sees it: a monotonic clock for deadlines in memory and a
wall clock for the Unix timestamps of the log. Both are read in nanoseconds. -/
namespace RustKV

/-- `std::time::Duration`, in nanoseconds. -/
abbrev Duration := ℕ

/-- `tokio::time::Instant`, in nanoseconds: signed 64-bit seconds and a fraction. -/
abbrev Instant := ℤ

def Duration.fromSecs (secs : UInt64) : Duration := secs.toNat * 10^9
def Duration.fromMillis (ms : UInt64) : Duration := ms.toNat * 10^6
def Duration.asMillis (duration : Duration) : ℕ := duration / 10^6

/-- The first time that an `Instant` cannot hold. -/
def instantLimit : ℤ := 2^63 * 10^9

/-- `Instant + Duration`, which panics on overflow. -/
def Instant.add (t : Instant) (duration : Duration) : Option Instant :=
  if t + duration < instantLimit then some (t + duration) else none

/-- What `Instant::now()` and `SystemTime::now()` read; `unix` counts from the Unix epoch. -/
structure Clock where
  instant : Instant
  unix : ℤ
  deriving DecidableEq

/-- The instant that lies a duration ahead. -/
def Clock.after (c : Clock) (duration : Duration) : Instant := c.instant + duration

theorem Instant.add_eq (c : Clock) (duration : Duration) :
    Instant.add c.instant duration =
      if c.after duration < instantLimit then some (c.after duration) else none := rfl

/-- `SystemTime::now().duration_since(UNIX_EPOCH).ok()` -/
def Clock.sinceEpoch (c : Clock) : Option Duration :=
  if 0 ≤ c.unix then some c.unix.toNat else none

def u64Max : ℕ := 2^64 - 1

def durationUntilUnixMs (c : Clock) (timestampMs : UInt64) : Option Duration :=
  match c.sinceEpoch with
  | none => none
  | some now =>
    let nowMs := Duration.asMillis now
    let targetMs := timestampMs.toNat
    if targetMs ≤ nowMs then
      none
    else
      let remainingMs := targetMs - nowMs
      let boundedMs := min remainingMs u64Max
      some (Duration.fromMillis (UInt64.ofNat boundedMs))

def currentUnixMs (c : Clock) : UInt64 :=
  UInt64.ofNat (min ((c.sinceEpoch.map Duration.asMillis).getD 0) u64Max)

/-- The sum is below `2^128`, so `saturating_add` on `u128` is plain addition. -/
def unixMsAfter (baseMs : UInt64) (duration : Duration) : UInt64 :=
  UInt64.ofNat (min (baseMs.toNat + Duration.asMillis duration) u64Max)

/-- `expire_at_ms_from_now` of the log. -/
def expireAtMsFromNow (c : Clock) (duration : Duration) : UInt64 :=
  let nowMs := (c.sinceEpoch.map Duration.asMillis).getD 0
  let targetMs := nowMs + Duration.asMillis duration
  UInt64.ofNat (min targetMs u64Max)

/-- The wall clock in whole milliseconds since the epoch. -/
def Clock.ms (c : Clock) : ℕ := c.unix.toNat / 10^6

/-- Both clocks have moved on by the same time. -/
def Clock.Advances (c d : Clock) : Prop := ∃ δ : ℕ, d = ⟨c.instant + δ, c.unix + δ⟩

theorem Clock.advances_refl (c : Clock) : c.Advances c := ⟨0, by simp⟩

theorem Clock.Advances.instant_le {c d : Clock} (h : c.Advances d) : c.instant ≤ d.instant := by
  obtain ⟨δ, rfl⟩ := h
  simp

theorem Clock.Advances.unix_le {c d : Clock} (h : c.Advances d) : c.unix ≤ d.unix := by
  obtain ⟨δ, rfl⟩ := h
  simp

/-- What the whole milliseconds say about the wall clock. -/
theorem Clock.ms_bounds (c : Clock) (h : 0 ≤ c.unix) :
    (c.ms : ℤ) * 10^6 ≤ c.unix ∧ c.unix < (c.ms + 1 : ℤ) * 10^6 := by
  unfold Clock.ms
  omega

theorem Clock.Advances.ms_le {c d : Clock} (h : c.Advances d) : c.ms ≤ d.ms :=
  Nat.div_le_div_right (Int.toNat_le_toNat h.unix_le)

theorem u64_toNat_ofNat {n : ℕ} (h : n ≤ u64Max) : (UInt64.ofNat n).toNat = n :=
  UInt64.toNat_ofNat_of_lt' (Nat.lt_of_le_of_lt h (by decide))

theorem durationUntilUnixMs_eq (c : Clock) (h : 0 ≤ c.unix) (ts : UInt64) :
    durationUntilUnixMs c ts = if ts.toNat ≤ c.ms then none else some ((ts.toNat - c.ms) * 10^6) := by
  have hts := ts.toNat_lt
  have hle : ts.toNat - c.ms ≤ u64Max := by
    unfold u64Max
    omega
  simp only [Clock.ms] at hle ⊢
  simp only [durationUntilUnixMs, Clock.sinceEpoch, if_pos h, Duration.asMillis,
    Duration.fromMillis, min_eq_left hle, u64_toNat_ofNat hle]
  rfl

/-- A timestamp is reached exactly when its whole millisecond has begun. -/
theorem durationUntilUnixMs_eq_none_iff (c : Clock) (h : 0 ≤ c.unix) (ts : UInt64) :
    durationUntilUnixMs c ts = none ↔ ts.toNat ≤ c.ms := by
  rw [durationUntilUnixMs_eq c h]
  split_ifs with hts <;> simp [hts]

/-- Without saturation, the logged deadline counts in whole milliseconds from now. -/
theorem expireAtMsFromNow_eq (c : Clock) (h : 0 ≤ c.unix) (duration : Duration)
    (hfit : c.ms + Duration.asMillis duration ≤ u64Max) :
    (expireAtMsFromNow c duration).toNat = c.ms + Duration.asMillis duration := by
  have hms : Duration.asMillis c.unix.toNat = c.ms := rfl
  simp only [expireAtMsFromNow, Clock.sinceEpoch, if_pos h, Option.map_some, Option.getD_some, hms,
    min_eq_left hfit, u64_toNat_ofNat hfit]

end RustKV

import RustKV.AofDecoding

/-! What a log says of one key: the value that was last set and the deadlines that were
given since. Replay at a restart keeps the key only if none of these deadlines is reached;
in memory the last one counts. -/
namespace RustKV
open Decimal TimedMap

/-- The value last set under a key and the timestamps since; none after a deletion. -/
abbrev Trail := Option (Bytes × List ℕ)

/-- How a record continues the trail of a key. -/
def Record.trail (key : String) (trail : Trail) : Record → Trail
  | .set k value => if k = key then some (value, []) else trail
  | .setPxAt k value ts => if k = key then some (value, [ts.toNat]) else trail
  | .del k ks => if key ∈ k :: ks then none else trail
  | .expireAt k ts =>
    if k = key then trail.map fun p => (p.1, p.2 ++ [ts.toNat]) else trail
  | .flushDb => none

def trailOf (key : String) (log : List Record) : Trail :=
  log.foldl (fun trail r => r.trail key trail) none

/-- The deadlines that the log has given to a key since the key was last set. -/
def deadlinesSinceSet (key : String) (log : List Record) : List ℕ :=
  ((trailOf key log).map Prod.snd).getD []

/-- The entry that a replay at the time `t` makes of a trail. -/
def Trail.entryAt (t : Clock) : Trail → Option Entry
  | none => none
  | some (value, tss) =>
    if ∀ ts ∈ tss, t.ms < ts then
      some ⟨value, tss.getLast?.map fun ts => t.after ((ts - t.ms) * 10^6)⟩
    else none

section Replayed
variable {t : Clock} {m : TimedMap String Bytes Instant} {key : String} {trail : Trail}

theorem alive_after {value : Bytes} {ts : ℕ} (h : t.ms < ts) :
    alive t.instant (⟨value, some (t.after ((ts - t.ms) * 10^6))⟩ : Entry) := by
  rw [alive_iff]
  rintro d ⟨⟩
  have hpos : 0 < (ts - t.ms) * 10^6 := by omega
  exact lt_add_of_pos_right t.instant (Int.natCast_pos.mpr hpos)

theorem Trail.entryAt_some {p : Bytes × List ℕ} (h : ∀ ts ∈ p.2, t.ms < ts) :
    Trail.entryAt t (some p) =
      some ⟨p.1, p.2.getLast?.map fun ts => t.after ((ts - t.ms) * 10^6)⟩ := if_pos h

theorem Trail.entryAt_dead {p : Bytes × List ℕ} (h : ¬ ∀ ts ∈ p.2, t.ms < ts) :
    Trail.entryAt t (some p) = none := if_neg h

theorem view_onKey {k : String} {op : KeyOp} {wrap : op.Result → DbReply} :
    view t.instant (DbOp.onKey t m k op wrap).2 key =
      if key = k then (op.leaves t (view t.instant m k)).filter (alive t.instant)
      else view t.instant m key := by
  rw [DbOp.onKey, view_update]
  split_ifs with h
  · rw [h, Function.update_self]
  · rw [Function.update_of_ne h]

/-- One replayed record. -/
theorem view_spec_record (ht : 0 ≤ t.unix) (r : Record)
    (h : view t.instant m key = trail.entryAt t) :
    view t.instant (r.op.spec t m).2 key = (r.trail key trail).entryAt t := by
  cases r with
  | set k value =>
    refine view_onKey.trans ?_
    by_cases hk : key = k
    · subst hk
      simp [KeyOp.leaves, Record.trail, Trail.entryAt, alive]
    · simpa [hk, Record.trail, Ne.symm hk] using h
  | setPxAt k value ts =>
    refine view_onKey.trans ?_
    by_cases hk : key = k
    · subst hk
      simp only [if_true, KeyOp.leaves, Record.trail, durationUntilUnixMs_eq t ht]
      by_cases hts : ts.toNat ≤ t.ms
      · rw [if_pos hts, Trail.entryAt_dead (by simpa using hts)]
        rfl
      · have hlt := not_le.mp hts
        rw [if_neg hts, Trail.entryAt_some (by simpa using hlt), Option.map_some,
          Option.filter_some, if_pos (alive_after hlt)]
        rfl
    · simpa [hk, Record.trail, Ne.symm hk] using h
  | del k ks =>
    have hdel : view t.instant (ShardedDatabase.eraseAll (k :: ks) m) key =
        if key ∈ k :: ks then none else view t.instant m key := by
      rw [view_apply, ShardedDatabase.eraseAll]
      split_ifs <;> rfl
    refine hdel.trans ?_
    rw [Record.trail, h]
    split_ifs <;> rfl
  | expireAt k ts =>
    refine view_onKey.trans ?_
    by_cases hk : key = k
    · subst hk
      simp only [if_true, KeyOp.leaves, Record.trail, durationUntilUnixMs_eq t ht, h]
      cases trail with
      | none => rfl
      | some p =>
        by_cases hall : ∀ ts ∈ p.2, t.ms < ts
        · rw [Trail.entryAt_some hall, Option.bind_some]
          by_cases hts : ts.toNat ≤ t.ms
          · have hnew : ¬ ∀ ts' ∈ p.2 ++ [ts.toNat], t.ms < ts' := fun h =>
              absurd (h ts.toNat (by simp)) (not_lt.mpr hts)
            rw [if_pos hts, Option.map_some, Trail.entryAt_dead hnew]
            rfl
          · have hlt := not_le.mp hts
            have hnew : ∀ ts' ∈ p.2 ++ [ts.toNat], t.ms < ts' := by
              simpa [or_imp, forall_and] using ⟨hall, hlt⟩
            rw [if_neg hts, Option.map_some, Option.map_some, Trail.entryAt_some hnew,
              Option.filter_some, if_pos (alive_after hlt), List.getLast?_append]
            rfl
        · have hnew : ¬ ∀ ts' ∈ p.2 ++ [ts.toNat], t.ms < ts' := fun h =>
            hall fun ts' hts' => h ts' (List.mem_append_left _ hts')
          rw [Trail.entryAt_dead hall, Option.map_some, Trail.entryAt_dead hnew]
          rfl
    · simpa [hk, Record.trail, Ne.symm hk] using h
  | flushDb => rfl

/-- What a replay at the time `t` leaves under a key. -/
theorem view_replay (ht : 0 ≤ t.unix) (key : String) (log : List Record) :
    view t.instant (replay t clear log) key = (trailOf key log).entryAt t := by
  induction log using List.reverseRecOn with
  | nil => rfl
  | append_singleton log r ih =>
    rw [replay_append, trailOf, List.foldl_append]
    exact view_spec_record ht r ih

end Replayed

/-- What is taken for granted of a write command that is executed at the time `c`, before a
restart at the time `t`. -/
structure Timely (t c : Clock) (cmd : Command) : Prop where
  wellFormed : WellFormed cmd
  write : isWriteCommand cmd
  advances : c.Advances t
  epoch : 0 ≤ c.unix
  unixFits : cmd.UnixFits c

/-- A deadline in memory that lies in the millisecond of a timestamp. The wall clock at the
deadline is computed from the two clocks at the time `t`. -/
def Agrees (t : Clock) : Option ℕ → Option Instant → Prop
  | none, none => True
  | some ts, some d => (ts : ℤ) * 10^6 ≤ d - t.instant + t.unix ∧
      d - t.instant + t.unix < (ts + 1 : ℤ) * 10^6
  | _, _ => False

/-- The entry in memory follows the trail, if no deadline of the trail is reached. -/
def Tracks (t : Clock) : Trail → Option Entry → Prop
  | none, live => live = none
  | some (value, tss), live =>
    (∀ ts ∈ tss, t.ms < ts) → ∃ d, live = some ⟨value, d⟩ ∧ Agrees t tss.getLast? d

section Live
variable {t c : Clock} {m : TimedMap String Bytes Instant} {key : String} {trail : Trail}

/-- A timestamp that is not reached stands for a deadline that is not reached. -/
theorem Agrees.alive (h0 : 0 ≤ t.unix) {value : Bytes} {tss : List ℕ} {d : Option Instant}
    (h : Agrees t tss.getLast? d) (htss : ∀ ts ∈ tss, t.ms < ts) (hc : c.Advances t) :
    TimedMap.alive c.instant (⟨value, d⟩ : Entry) := by
  rw [alive_iff]
  rintro x hx
  cases hx
  have hle := hc.instant_le
  have hms := t.ms_bounds h0
  cases hl : tss.getLast? with
  | none => simp [hl, Agrees] at h
  | some ts =>
    have hts := htss ts (List.mem_of_getLast? hl)
    rw [hl] at h
    obtain ⟨h₁, -⟩ := h
    have hts' : (t.ms : ℤ) + 1 ≤ ts := by exact_mod_cast hts
    linarith

/-- The deadline of a timestamp that is handled before the restart. -/
theorem agrees_until (hc : c.Advances t) (h0 : 0 ≤ c.unix) {ts : ℕ} (hts : c.ms < ts) :
    Agrees t (some ts) (some (c.after ((ts - c.ms) * 10^6))) := by
  obtain ⟨δ, rfl⟩ := hc
  have hms := c.ms_bounds h0
  have hcast : (((ts - c.ms) * 10^6 : ℕ) : ℤ) = (ts - c.ms : ℤ) * 10^6 := by
    push_cast [Nat.cast_sub hts.le]
    rfl
  have hd : c.after ((ts - c.ms) * 10^6) = c.instant + (ts - c.ms : ℤ) * 10^6 :=
    congrArg (c.instant + ·) hcast
  simp only [Agrees, hd]
  constructor <;> linarith

/-- The deadline of a duration in whole milliseconds. -/
theorem agrees_duration (hc : c.Advances t) (h0 : 0 ≤ c.unix) {duration : Duration} {ms : ℕ}
    (hd : duration = ms * 10^6) (hfit : c.ms + Duration.asMillis duration ≤ u64Max) :
    Agrees t (some (expireAtMsFromNow c duration).toNat) (some (c.after duration)) := by
  have hms : Duration.asMillis duration = ms := by
    rw [hd]
    exact Nat.mul_div_cancel ms (by norm_num)
  rw [expireAtMsFromNow_eq c h0 duration hfit, hms]
  by_cases hpos : 0 < ms
  · have := agrees_until hc h0 (show c.ms < c.ms + ms by omega)
    rwa [Nat.add_sub_cancel_left, ← hd] at this
  · obtain rfl : ms = 0 := by omega
    obtain ⟨δ, rfl⟩ := hc
    have hms := c.ms_bounds h0
    have hd0 : c.after duration = c.instant := by
      rw [hd]
      exact add_zero c.instant
    simp only [Agrees, hd0]
    constructor <;> push_cast <;> linarith

/-- One write command, in memory and in the log. -/
theorem tracks_step (h0 : 0 ≤ t.unix) {cmd : Command} (ht : Timely t c cmd) {r : Record}
    (hl : logged c cmd = some r) (h : Tracks t trail (m key)) :
    Tracks t (r.trail key trail) (cmd.after c m key) := by
  have hms : c.ms ≤ t.ms := ht.advances.ms_le
  have honKey {k : String} {op : KeyOp} {wrap : op.Result → DbReply} :
      (DbOp.onKey c m k op wrap).2 key =
        if key = k then op.leaves c (view c.instant m k) else m key := Function.update_apply ..
  -- an entry that follows its trail is alive, so that it can get a new deadline
  have hexpire {ts : ℕ} {d : Instant} {o : Option Entry} (hd : t.ms < ts → Agrees t (some ts) (some d))
      (ho : t.ms < ts → o = (view c.instant m key).map fun e => ⟨e.value, some d⟩)
      (hdead : m key = none → o = none) :
      Tracks t (trail.map fun p => (p.1, p.2 ++ [ts])) o := by
    cases trail with
    | none => exact hdead h
    | some p =>
      intro hnew
      have hts := hnew ts (by simp)
      have hall : ∀ ts ∈ p.2, t.ms < ts := fun ts hts => hnew ts (List.mem_append_left _ hts)
      obtain ⟨d₀, hm, hag⟩ := h hall
      have hview : view c.instant m key = some ⟨p.1, d₀⟩ :=
        view_eq_some_iff.mpr ⟨hm, hag.alive h0 hall ht.advances⟩
      exact ⟨some d, by rw [ho hts, hview]; rfl, by rw [List.getLast?_concat]; exact hd hts⟩
  cases cmd with
  | set k value duration =>
    cases duration with
    | none =>
      cases hl
      refine (congrArg (Tracks t _) honKey).mpr ?_
      by_cases hk : key = k
      · subst hk
        simpa [Record.trail, Tracks] using ⟨none, rfl, trivial⟩
      · simpa [hk, Record.trail, Ne.symm hk] using h
    | some d =>
      cases hl
      refine (congrArg (Tracks t _) honKey).mpr ?_
      by_cases hk : key = k
      · subst hk
        obtain ⟨amount, hd⟩ := ht.wellFormed
        obtain ⟨ms, hd⟩ := wholeMillis hd
        simp only [if_true, Record.trail, Tracks]
        exact fun _ => ⟨_, rfl, agrees_duration ht.advances ht.epoch hd ht.unixFits⟩
      · simpa [hk, Record.trail, Ne.symm hk] using h
  | setPxAt k value ts =>
    cases hl
    refine (congrArg (Tracks t _) honKey).mpr ?_
    by_cases hk : key = k
    · subst hk
      simp only [if_true, Record.trail, Tracks, KeyOp.leaves, durationUntilUnixMs_eq c ht.epoch]
      intro hts
      have hlt : c.ms < ts.toNat := hms.trans_lt (hts _ (by simp))
      rw [if_neg (not_le.mpr hlt)]
      exact ⟨_, rfl, agrees_until ht.advances ht.epoch hlt⟩
    · simpa [hk, Record.trail, Ne.symm hk] using h
  | del ks =>
    cases ks with
    | nil => cases hl
    | cons k ks =>
      cases hl
      have hdel : (Command.del (k :: ks)).after c m key = if key ∈ k :: ks then none else m key := rfl
      rw [hdel, Record.trail]
      split_ifs
      · rfl
      · exact h
  | expire k secs =>
    cases hl
    refine (congrArg (Tracks t _) honKey).mpr ?_
    by_cases hk : key = k
    · subst hk
      simp only [if_true, Record.trail]
      obtain ⟨ms, hd⟩ := wholeMillis (Or.inl (rfl : Duration.fromSecs secs = _))
      refine hexpire (fun _ => agrees_duration ht.advances ht.epoch hd ht.unixFits) (fun _ => rfl) ?_
      intro hnone
      simp [KeyOp.leaves, view_apply, hnone]
    · simpa [hk, Record.trail, Ne.symm hk] using h
  | expireAt k ts =>
    cases hl
    refine (congrArg (Tracks t _) honKey).mpr ?_
    by_cases hk : key = k
    · subst hk
      simp only [if_true, Record.trail, KeyOp.leaves, durationUntilUnixMs_eq c ht.epoch]
      refine hexpire (fun hts => agrees_until ht.advances ht.epoch (hms.trans_lt hts)) ?_ ?_
      · intro hts
        rw [if_neg (not_le.mpr (hms.trans_lt hts))]
        cases view c.instant m key <;> rfl
      · intro hnone
        simp [view_apply, hnone]
    · simpa [hk, Record.trail, Ne.symm hk] using h
  | flushDb =>
    cases hl
    rfl
  | ping | get | exists' | keys | ttl | info | unknown => cases hl

/-- What commands leave in memory, each executed at its own time. -/
noncomputable def liveMap (cmds : List (Clock × Command)) (m : TimedMap String Bytes Instant) :
    TimedMap String Bytes Instant := cmds.foldl (fun m p => p.2.after p.1 m) m

/-- What they leave in the log. -/
def logOf (cmds : List (Clock × Command)) : List Record :=
  cmds.filterMap fun p => logged p.1 p.2

/-- Memory follows the log. -/
theorem tracks_run (h0 : 0 ≤ t.unix) (key : String) (cmds : List (Clock × Command))
    (hcmds : ∀ p ∈ cmds, Timely t p.1 p.2) :
    Tracks t (trailOf key (logOf cmds)) (liveMap cmds clear key) := by
  induction cmds using List.reverseRecOn with
  | nil => rfl
  | append_singleton cmds p ih =>
    have hp := hcmds p (by simp)
    have hlogged : (logged p.1 p.2).isSome := isWriteCommand_logged p.1 hp.wellFormed ▸ hp.write
    obtain ⟨r, hr⟩ := Option.isSome_iff_exists.mp hlogged
    have hlog : logOf (cmds ++ [p]) = logOf cmds ++ [r] := by simp [logOf, hr]
    have hlive : liveMap (cmds ++ [p]) clear = p.2.after p.1 (liveMap cmds clear) := by
      simp [liveMap]
    rw [hlog, hlive, trailOf, List.foldl_append]
    exact tracks_step h0 hp hr (ih fun q hq => hcmds q (List.mem_append_left _ hq))

end Live

end RustKV

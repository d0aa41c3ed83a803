import RustKV.AofRuns

/-! What is read back from a log. The loop that loads a file finds one command for each append,
and this command does at once what the logged one does. -/
namespace RustKV
open Decimal TimedMap

section Loop
variable {n : ℕ} {hash : String → UInt64} {bytes : Bytes} {cmds : List Command}
open ServerM

/-- The rounds of the loop of `load_and_replay`: a command is decoded from the front of what is
left of the file, until nothing is left. -/
inductive LoopReads : Bytes → List Command → Prop
  | done : LoopReads [] []
  | round {bytes : Bytes} {resp : RespFrame} {consumed : ℕ} {cmd : Command}
      {cmds : List Command} : bytes ≠ [] →
      parseRespOrPanic frameSize bytes = some (.ok (resp, consumed)) →
      Command.fromResp resp = .ok cmd → LoopReads (bytes.drop consumed) cmds →
      LoopReads bytes (cmd :: cmds)

/-- Replay commands until one fails. -/
def replayEach (hash : String → UInt64) : List Command → ServerM n (IoResult Unit)
  | [] => return .ok ()
  | cmd :: cmds => andThen (onDb (replayCommand hash cmd)) fun _ => replayEach hash cmds

/-- The loop replays what it reads, and ends at the end of the file. -/
theorem LoopReads.replayRest_eq (h : LoopReads bytes cmds) {fuel : ℕ}
    (hfuel : bytes.length ≤ fuel) :
    replayRest (n := n) hash fuel bytes = replayEach hash cmds := by
  induction h generalizing fuel with
  | done => exact replayRest_nil fuel
  | @round bytes resp consumed cmd cmds hne hparse hcmd _ ih =>
    have hpos := List.length_pos_iff.mpr hne
    obtain ⟨fuel, rfl⟩ := Nat.exists_eq_succ_of_ne_zero (show fuel ≠ 0 by omega)
    -- a round consumes a frame, so that the fuel lasts
    have hconsumed : 0 < consumed := by
      obtain ⟨w, _, -, rfl, hw⟩ := derives_of_parseResp (parseRespOrPanic_ok hparse).1
      exact List.length_pos_iff.mpr hw.ne_nil
    have hrest := @ih fuel (by rw [List.length_drop]; omega)
    rw [replayRest, if_neg (by simpa using hne), hparse]
    simp only [hcmd, hrest, replayEach]

/-- A frame of bulk strings holds no other array. -/
theorem arraysFit_bulk {elementSize : ℕ} {args : List Bytes}
    (h : args.length * elementSize ≤ isizeMax) :
    ArraysFit elementSize (.array (args.map .bulkString)) := by
  intro m hm
  cases hm with
  | here =>
    rw [List.length_map]
    exact h
  | inside _ v _ hv hinner =>
    obtain ⟨arg, -, rfl⟩ := List.mem_map.mp hv
    cases hinner

end Loop

section Decoding
variable {appends : List (Clock × Command)}

/-- `min(now_ms + duration_ms, u64::MAX)` -/
def saturatedMs (c : Clock) (duration : Duration) : UInt64 :=
  UInt64.ofNat (min (c.ms + Duration.asMillis duration) u64Max)

/-- What a command that was logged at the time `c` is read back as. -/
def readBack (c : Clock) : Command → Command
  | .set key value (some duration) => .setPxAt key value (saturatedMs c duration)
  | .expire key seconds => .expireAt key (saturatedMs c (Duration.fromSecs seconds))
  | cmd => cmd

theorem expireAtMsFromNow_saturated (c : Clock) (duration : Duration) :
    expireAtMsFromNow c duration = saturatedMs c duration := by
  have hms : (c.sinceEpoch.map Duration.asMillis).getD 0 = c.ms := by
    unfold Clock.sinceEpoch
    split_ifs with h
    · rfl
    · rw [Clock.ms, Int.toNat_of_nonpos (by omega)]
      rfl
  rw [expireAtMsFromNow, saturatedMs, hms]

theorem logged_readBack {c : Clock} {cmd : Command} {r : Record} (h : logged c cmd = some r) :
    r.command = readBack c cmd := by
  cases cmd with
  | set key value duration =>
    cases duration with
    | none =>
      cases h
      rfl
    | some d =>
      cases h
      exact congrArg (Command.setPxAt key value) (expireAtMsFromNow_saturated c d)
  | expire key seconds =>
    cases h
    exact congrArg (Command.expireAt key) (expireAtMsFromNow_saturated c _)
  | del keys =>
    cases keys with
    | nil => cases h
    | cons key keys =>
      cases h
      rfl
  | setPxAt | expireAt | flushDb =>
    cases h
    rfl
  | ping | get | exists' | keys | ttl | info | unknown => cases h

/-- A DEL names so few keys that the array of its record fits in an allocation. -/
def KeysFit : Command → Prop
  | .del keys => (keys.length + 1) * frameSize ≤ isizeMax
  | _ => True

theorem Record.arraysFit {r : Record} (h : KeysFit r.command) : ArraysFit frameSize r.frame := by
  apply arraysFit_bulk
  cases r with
  | del key keys =>
    rw [Record.args, List.length_cons, List.length_map]
    exact h
  | set | setPxAt | expireAt | flushDb =>
    simp only [Record.args, List.length_cons, List.length_nil, frameSize, isizeMax]
    omega

/-- One round, on a record at the front. -/
theorem LoopReads.record {r : Record} {rest : Bytes} {cmds : List Command}
    (hlen : (r.bytes ++ rest).length ≤ isizeMax) (hfits : KeysFit r.command)
    (h : LoopReads rest cmds) : LoopReads (r.bytes ++ rest) (r.command :: cmds) := by
  have hr : r.bytes.length ≤ (r.bytes ++ rest).length := by simp
  have hparse := parseRespOrPanic_of_fits (r.derives (hr.trans hlen)) (Record.arraysFit hfits) hlen
  refine .round ?_ hparse (fromResp_record r) ?_
  · simp [r.bytes_ne_nil]
  · rwa [List.drop_left]

theorem keysFit_readBack {c : Clock} {cmd : Command} (h : KeysFit cmd) :
    KeysFit (readBack c cmd) := by
  cases cmd with
  | set key value duration => cases duration <;> trivial
  | del => exact h
  | _ => trivial

/-- The loop over the file reads one command for each append, in their order, and ends at the end
of the file: it replays exactly these commands. -/
theorem log_read_back (appends : List (Clock × Command))
    (hwrites : ∀ p ∈ appends, Decoded p.2 ∧ isWriteCommand p.2)
    (hfits : ∀ p ∈ appends, KeysFit p.2) (hlen : (appendedBytes appends).length ≤ isizeMax) :
    LoopReads (appendedBytes appends) (appends.map fun p => readBack p.1 p.2) ∧
      ∀ (n : ℕ) (hash : String → UInt64) (path : Path) (t : Clock) (w : World n),
        w.files path = some (appendedBytes appends) →
        (AofEngine.loadAndReplay hash path).run (World.exec t none) w =
          (replayEach hash (appends.map fun p => readBack p.1 p.2)).run (World.exec t none) w := by
  have hreads : LoopReads (appendedBytes appends) (appends.map fun p => readBack p.1 p.2) := by
    induction appends with
    | nil => exact .done
    | cons p appends ih =>
      obtain ⟨⟨hdecoded, hwrite⟩, hwrites⟩ := List.forall_mem_cons.mp hwrites
      obtain ⟨hfit, hfits⟩ := List.forall_mem_cons.mp hfits
      have hwf := hdecoded.wellFormed
      obtain ⟨r, hr⟩ : ∃ r, logged p.1 p.2 = some r :=
        Option.isSome_iff_exists.mp ((isWriteCommand_logged p.1 hwf).symm.trans hwrite)
      have hbytes : appendedBytes (p :: appends) = r.bytes ++ appendedBytes appends := by
        simp [appendedBytes, commandToRespBytes_eq p.1 p.2 hwf.ne_del_nil, hr]
      rw [hbytes] at hlen ⊢
      have hcmd := logged_readBack hr
      rw [List.map_cons, ← hcmd]
      apply LoopReads.record hlen
      · rw [hcmd]
        exact keysFit_readBack hfit
      · apply ih hwrites hfits
        rw [List.length_append] at hlen
        omega
  refine ⟨hreads, fun n hash path t w hfile => ?_⟩
  rw [loadAndReplay_present hfile, hreads.replayRest_eq le_rfl]

def sampleAppends : List (Clock × Command) := [(⟨0, 0⟩, .set "k" [118] none), (⟨0, 0⟩, .del ["k"])]

theorem log_read_back_sample :
    LoopReads (appendedBytes sampleAppends) [.set "k" [118] none, .del ["k"]] := by
  have hreads := log_read_back sampleAppends
  refine (hreads ?_ ?_ (by decide +kernel)).1
  · intro p hp
    simp only [sampleAppends, List.mem_cons, List.not_mem_nil, or_false] at hp
    rcases hp with rfl | rfl
    · exact ⟨(Record.set "k" [118]).decoded, rfl⟩
    · exact ⟨(Record.del "k" []).decoded, rfl⟩
  · intro p hp
    simp only [sampleAppends, List.mem_cons, List.not_mem_nil, or_false] at hp
    rcases hp with rfl | rfl
    · trivial
    · unfold KeysFit
      decide +kernel

end Decoding

section Effects
variable {n : ℕ} {hash : String → UInt64} {c : Clock} {m : TimedMap String Bytes Instant}

/-- The deadline that a command computes in Unix milliseconds fits in a `u64`. -/
def Command.UnixFits (c : Clock) : Command → Prop
  | .set _ _ (some duration) => c.ms + Duration.asMillis duration ≤ u64Max
  | .expire _ secs => c.ms + Duration.asMillis (Duration.fromSecs secs) ≤ u64Max
  | _ => True

theorem wholeMillis {amount : UInt64} {duration : Duration}
    (h : duration = Duration.fromSecs amount ∨ duration = Duration.fromMillis amount) :
    ∃ ms : ℕ, duration = ms * 10^6 := by
  rcases h with rfl | rfl
  · exact ⟨amount.toNat * 1000, (Nat.mul_assoc amount.toNat 1000 (10^6)).symm⟩
  · exact ⟨amount.toNat, rfl⟩

/-- The logged time of a duration in whole milliseconds is as far away as the duration. -/
theorem durationUntil_saturated (h0 : 0 ≤ c.unix) {duration : Duration} {ms : ℕ}
    (hd : duration = ms * 10^6) (hfit : c.ms + Duration.asMillis duration ≤ u64Max) :
    durationUntilUnixMs c (expireAtMsFromNow c duration) =
      if duration = 0 then none else some duration := by
  have hms : Duration.asMillis duration = ms := by
    rw [hd]
    exact Nat.mul_div_cancel ms (by norm_num)
  rw [durationUntilUnixMs_eq c h0, expireAtMsFromNow_eq c h0 duration hfit, hms]
  by_cases hzero : ms = 0
  · rw [if_pos (by omega), if_pos (by rw [hd, hzero, Nat.zero_mul])]
  · have hne : duration ≠ 0 := by
      rw [hd]
      positivity
    rw [if_neg (by omega), if_neg hne, Nat.add_sub_cancel_left, hd]

/-- A deadline that is reached at once leaves nothing alive. -/
theorem filter_after_zero {value : Bytes} :
    (some ⟨value, some (c.after 0)⟩ : Option Entry).filter (alive c.instant) = none := by
  have hdead : ¬ alive c.instant (⟨value, some (c.after 0)⟩ : Entry) := by
    rw [alive_iff]
    intro hlt
    have hnow := hlt (c.after 0) rfl
    simp [Clock.after] at hnow
  simp [hdead]

/-- Two operations on a key that leave the same alive. -/
theorem view_onKey_congr {key : String} {op op' : KeyOp} {wrap : op.Result → DbReply}
    {wrap' : op'.Result → DbReply}
    (h : (op.leaves c (view c.instant m key)).filter (alive c.instant) =
      (op'.leaves c (view c.instant m key)).filter (alive c.instant)) :
    view c.instant (DbOp.onKey c m key op wrap).2 = view c.instant (DbOp.onKey c m key op' wrap').2 := by
  rw [DbOp.onKey, DbOp.onKey, view_update, view_update, h]

/-- The record of a command does at once what the command does. -/
theorem view_logged (h0 : 0 ≤ c.unix) {cmd : Command} {r : Record} (hwf : WellFormed cmd)
    (hunix : cmd.UnixFits c) (hl : logged c cmd = some r) :
    view c.instant (r.op.spec c m).2 = view c.instant (cmd.after c m) := by
  cases cmd with
  | set key value duration =>
    cases duration with
    | none =>
      cases hl
      rfl
    | some d =>
      cases hl
      obtain ⟨amount, hd⟩ := hwf
      obtain ⟨ms, hd⟩ := wholeMillis hd
      apply view_onKey_congr
      rw [KeyOp.leaves, KeyOp.leaves, durationUntil_saturated h0 hd hunix]
      split_ifs with hzero
      · rw [hzero, Option.map_some, filter_after_zero]
        rfl
      · rfl
  | expire key secs =>
    cases hl
    obtain ⟨ms, hd⟩ := wholeMillis (Or.inl (rfl : Duration.fromSecs secs = _))
    apply view_onKey_congr
    rw [KeyOp.leaves, KeyOp.leaves, durationUntil_saturated h0 hd hunix]
    cases view c.instant m key with
    | none => rfl
    | some entry =>
      split_ifs with hzero
      · rw [hzero, Option.map_some, filter_after_zero]
        rfl
      · rfl
  | del keys =>
    cases keys with
    | nil => cases hl
    | cons key keys =>
      cases hl
      rfl
  | setPxAt | expireAt | flushDb =>
    cases hl
    rfl
  | ping | get | exists' | keys | ttl | info | unknown => cases hl

/-- A command that is not logged leaves what is alive. -/
theorem view_not_logged {cmd : Command} (hwf : WellFormed cmd) (hl : logged c cmd = none) :
    view c.instant (cmd.after c m) = view c.instant m := by
  have hread (key : String) : view c.instant (Function.update m key (view c.instant m key)) =
      view c.instant m := by
    have hkey := congrFun (view_idem c.instant m) key
    rw [view_apply] at hkey
    rw [view_update, hkey, Function.update_eq_self]
  cases cmd with
  | set key value duration => cases duration <;> cases hl
  | del keys =>
    cases keys with
    | nil => exact absurd rfl hwf
    | cons key keys => cases hl
  | get key | exists' key | ttl key => exact hread key
  | ping | info | unknown | keys => rfl
  | setPxAt | expire | expireAt | flushDb => cases hl

/-- The record of a command whose deadline fits has one that fits. -/
theorem fits_logged (h0 : 0 ≤ c.unix) {cmd : Command} {r : Record} (hwf : WellFormed cmd)
    (hunix : cmd.UnixFits c) (hfits : cmd.Fits c m) (hl : logged c cmd = some r) :
    r.command.Fits c m := by
  have huntil {duration d : Duration} {ms : ℕ} (hd : duration = ms * 10^6)
      (hfit : c.ms + Duration.asMillis duration ≤ u64Max)
      (hdeadline : d ∈ durationUntilUnixMs c (expireAtMsFromNow c duration)) : d = duration := by
    rw [durationUntil_saturated h0 hd hfit] at hdeadline
    split_ifs at hdeadline with hzero
    · cases hdeadline
    · cases hdeadline
      rfl
  apply Record.fits_command
  cases cmd with
  | set key value duration =>
    cases duration with
    | none =>
      cases hl
      exact hfits _ rfl
    | some d =>
      cases hl
      obtain ⟨amount, hd⟩ := hwf
      obtain ⟨ms, hd⟩ := wholeMillis hd
      rintro _ ⟨⟩ t ht
      obtain ⟨d', hd', rfl⟩ := Option.map_eq_some_iff.mp ht
      rw [huntil hd hunix hd']
      exact hfits _ rfl _ rfl _ rfl
  | expire key secs =>
    cases hl
    obtain ⟨ms, hd⟩ := wholeMillis (Or.inl (rfl : Duration.fromSecs secs = _))
    rintro _ ⟨⟩ t ht
    have hfit := hfits _ rfl _ rfl
    dsimp only [KeyOp.Fits] at hfit ht
    cases hview : view c.instant m key with
    | none =>
      rw [hview] at ht
      cases ht
    | some entry =>
      rw [hview] at ht hfit
      obtain ⟨d', hd', rfl⟩ := Option.map_eq_some_iff.mp ht
      rw [huntil hd hunix hd']
      exact hfit _ rfl
  | del keys =>
    cases keys with
    | nil => cases hl
    | cons key keys =>
      cases hl
      exact hfits _ rfl
  | setPxAt | expireAt | flushDb =>
    cases hl
    exact hfits _ rfl
  | ping | get | exists' | keys | ttl | info | unknown => cases hl

end Effects

end RustKV

import RustKV.AofReplay
import RustKV.ShardedCounts

/-! Which commands execute to a reply. Everything that can go wrong in the arithmetic of a
command is a deadline that an `Instant` cannot hold, or a TTL that an `i64` cannot hold. -/
namespace RustKV
open Decimal TimedMap

/-- The reply to TTL of a live key with a deadline: its `u64` sum does not overflow and
its cast to `i64` is not negative. -/
def TtlReply (c : Clock) (m : TimedMap String Bytes Instant) (cmd : Command)
    (reply : RespValue) : Prop :=
  ∀ key entry t, cmd = .ttl key → view c.instant m key = some entry → entry.expireAt = some t →
    secsLeft c t < 2^64 ∧ ∃ secs : Int64, reply = .integer secs ∧ 0 ≤ secs.toInt

/-- The seconds that TTL has to reply fit in an `i64`. -/
def Command.TtlFits (c : Clock) (m : TimedMap String Bytes Instant) (cmd : Command) : Prop :=
  ∀ key entry t, cmd = .ttl key → view c.instant m key = some entry → entry.expireAt = some t →
    secsLeft c t < 2^63

theorem int64_ofNat_nonneg_iff {v : ℕ} (h : v < 2^64) : 0 ≤ (Int64.ofNat v).toInt ↔ v < 2^63 := by
  have hsize : (Int64.size : ℤ) = 2^64 := rfl
  rw [Int64.toInt_ofNat', Int.bmod_def, hsize]
  split_ifs <;> omega

theorem ttlReply_iff {toJson : ServerStatsSnapshot → KvResult String} {c : Clock}
    {m : TimedMap String Bytes Instant} {cmd : Command} {reply : RespValue}
    (h : Replies toJson c m cmd reply) : TtlReply c m cmd reply ↔ cmd.TtlFits c m := by
  refine forall_congr' fun key => forall_congr' fun entry => forall_congr' fun t => ?_
  refine imp_congr_right fun hcmd => imp_congr_right fun hview => imp_congr_right fun ht => ?_
  subst hcmd
  have hreply : reply = .integer (Int64.ofNat (secsLeft c t)) := by
    have hr : reply = .integer (Int64.ofInt (Database.ttlOf c (view c.instant m key))) := h
    rw [hr, hview, Database.ttlOf, ht, Int64.ofInt_eq_ofNat]
  constructor
  · rintro ⟨hlt, secs, hr, hsecs⟩
    cases hreply.symm.trans hr
    exact (int64_ofNat_nonneg_iff hlt).mp hsecs
  · intro hlt
    exact ⟨by omega, _, hreply, (int64_ofNat_nonneg_iff (by omega)).mpr hlt⟩

namespace Kv
open KvM ServerStats
variable {n : ℕ} {c : Clock} {s : Kv n} {α β : Type}

def Underflows : KvAct n → Kv n → Prop
  | .db a, s => ShardedDatabase.Underflows a s.db
  | .stat _, _ => False

/-- Run alone, the program returns a value that satisfies `Q`, and nothing underflows. -/
def Answers (c : Clock) (p : KvM n α) (s : Kv n) (Q : α → Prop) : Prop :=
  Prog.Ensures (exec c) p s (fun a _ => Q a) ∧ Prog.Avoids (exec c) Underflows p s

structure Sound (c : Clock) (p : KvM n α) (s : Kv n) : Prop where
  avoids : Prog.Avoids (exec c) Underflows p s
  counted : (p.run (exec c) s).2.db.Counted

section Rules

theorem sound_pure (a : α) (h : s.db.Counted) : Sound c (pure a : KvM n α) s := ⟨trivial, h⟩

theorem sound_onDb {p : DbM n α} (hp : ShardedDatabase.Sound c p s.db) : Sound c (onDb p) s := by
  have hact (a : DbAct n) (s : Kv n) : ((exec c (.db a) s).1.map (fun answer => answer),
      (exec c (.db a) s).2.db) = ShardedDatabase.exec c a s.db := by
    simp only [exec]
    rcases ShardedDatabase.exec c a s.db with ⟨_ | r, db⟩ <;> rfl
  refine ⟨(Prog.avoids_lift Kv.db (fun _ _ => Iff.rfl) hact p s).mpr hp.avoids, ?_⟩
  rw [run_onDb]
  exact hp.counted

theorem sound_bind {p : KvM n α} {f : α → KvM n β} (hp : Sound c p s)
    (hf : ∀ a s', s'.db.Counted → Sound c (f a) s') : Sound c (p >>= f) s := by
  have hcounted := hp.counted
  refine ⟨Prog.avoids_bind hp.avoids fun a s' ha => ?_, ?_⟩
  · rw [ha] at hcounted
    exact (hf a s' hcounted).avoids
  · rw [Prog.run_bind]
    rcases hr : p.run (exec c) s with ⟨_ | a, s'⟩ <;> rw [hr] at hcounted
    · exact hcounted
    · exact (hf a s' hcounted).counted

theorem sound_stat {a : StatAct} {f : a.Answer → KvM n α} (h : s.db.Counted)
    (hf : ∀ r s', s'.db.Counted → Sound c (f r) s') :
    Sound c (Prog.perform (R := KvAct.Answer) (KvAct.stat a) >>= f) s := by
  refine sound_bind (p := Prog.perform (R := KvAct.Answer) (KvAct.stat a)) ⟨?_, ?_⟩ hf
  · exact ⟨id, fun _ _ _ => trivial⟩
  · rw [Prog.run_perform]
    exact h

theorem sound_count (outcome : DbOutcome β) {f : Unit → KvM n α} (h : s.db.Counted)
    (hf : ∀ s', s'.db.Counted → Sound c (f ()) s') : Sound c (RustKV.count outcome >>= f) s :=
  sound_stat h fun _ _ h' => sound_stat h' fun _ s' h'' => hf s' h''

end Rules

section Commands
variable {hash : String → UInt64} {toJson : ServerStatsSnapshot → KvResult String}
open ShardedDatabase (sound_onShard)

theorem sound_runCommand (h : s.db.Counted) (cmd : Command) :
    Sound c (runCommand hash toJson cmd) s := by
  cases cmd with
  | ping | unknown => exact sound_pure _ h
  | set | setPxAt | get =>
    refine sound_bind (sound_onDb (sound_onShard h _ _)) fun outcome s' h' => ?_
    exact sound_stat h' fun _ _ h' => sound_count outcome h' fun s' h' => sound_pure _ h'
  | del =>
    refine sound_bind (sound_onDb (ShardedDatabase.sound_del h _)) fun outcome s' h' => ?_
    exact sound_stat h' fun _ _ h' => sound_count outcome h' fun s' h' => sound_pure _ h'
  | exists' | expire | expireAt | ttl =>
    refine sound_bind (sound_onDb (sound_onShard h _ _)) fun outcome s' h' => ?_
    exact sound_count outcome h' fun s' h' => sound_pure _ h'
  | keys =>
    exact sound_bind (sound_onDb (ShardedDatabase.sound_keys h)) fun _ _ h' => sound_pure _ h'
  | flushDb =>
    refine sound_bind (sound_onDb ShardedDatabase.sound_flushdb) fun outcome s' h' => ?_
    exact sound_stat h' fun _ _ h' => sound_pure _ h'
  | info =>
    refine sound_bind (sound_onDb (ShardedDatabase.sound_infoSnapshot h)) fun info s' h' => ?_
    refine sound_stat h' fun _ _ h' => sound_stat h' fun _ _ h' => sound_stat h' fun _ _ h' => ?_
    refine sound_bind ?_ fun _ _ h' => sound_pure _ h'
    iterate 14 refine sound_stat h' fun _ _ h' => ?_
    exact sound_pure _ h'

theorem sound_executeCommand (h : s.db.Counted) (cmd : Command) :
    Sound c (executeCommand hash toJson cmd) s := by
  unfold executeCommand
  split_ifs
  · exact sound_runCommand h cmd
  · exact sound_stat h fun _ _ h' => sound_runCommand h' cmd

theorem sound_replayCommand (h : s.db.Counted) (cmd : Command) :
    Sound c (onDb (replayCommand hash cmd)) s := by
  refine sound_onDb ?_
  have hreplayed {α : Type} {p : DbM n (DbOutcome (KvResult α))}
      (hp : ShardedDatabase.Sound c p s.db) : ShardedDatabase.Sound c (replayed p) s.db := by
    refine ShardedDatabase.sound_bind hp fun outcome db' _ h' => ?_
    rcases outcome.result with error | a <;> exact ShardedDatabase.sound_pure _ h'
  cases cmd with
  | set | setPxAt | expire | expireAt => exact hreplayed (sound_onShard h _ _)
  | del => exact hreplayed (ShardedDatabase.sound_del h _)
  | flushDb => exact hreplayed ShardedDatabase.sound_flushdb
  | _ => exact ShardedDatabase.sound_pure _ h

/-- The states that commands, replayed commands, purges and snapshots lead to, at any times,
also when one of them panics half-way. -/
inductive Reachable (hash : String → UInt64) (toJson : ServerStatsSnapshot → KvResult String) :
    Kv n → Prop where
  | new (stats : ServerStats) : Reachable hash toJson ⟨ShardedDatabase.new n, stats⟩
  | execute {s : Kv n} (c : Clock) (cmd : Command) (h : Reachable hash toJson s) :
      Reachable hash toJson ((executeCommand hash toJson cmd).run (exec c) s).2
  | replay {s : Kv n} (c : Clock) (cmd : Command) (h : Reachable hash toJson s) :
      Reachable hash toJson ((onDb (replayCommand hash cmd)).run (exec c) s).2
  | removeExpired {s : Kv n} (c : Clock) (h : Reachable hash toJson s) :
      Reachable hash toJson ((onDb ShardedDatabase.removeExpired).run (exec c) s).2
  | snapshotEntries {s : Kv n} (c : Clock) (h : Reachable hash toJson s) :
      Reachable hash toJson ((onDb ShardedDatabase.snapshotEntries).run (exec c) s).2

/-- In a reachable state every key is in its shard and the counter covers what is stored. -/
theorem Reachable.invariant (h : Reachable hash toJson s) :
    ShardedDatabase.Routed hash s.db ∧ s.db.Counted := by
  have hpurge {s : Kv n} {c : Clock} {α : Type} {p : DbM n α} {Q : α → ShardedDatabase n → Prop}
      (hp : Prog.Ensures (ShardedDatabase.exec c) p s.db fun a db' =>
        ShardedDatabase.Purged c hash s.db db' ∧ Q a db') :
      ShardedDatabase.Routed hash ((onDb p).run (exec c) s).2.db := by
    obtain ⟨a, db', hrun, hp, -⟩ := hp
    rw [run_onDb, hrun]
    exact hp.1
  induction h with
  | new stats =>
    exact ⟨fun i key h => absurd (AList.lookup_empty key) h, ShardedDatabase.counted_new n⟩
  | @execute s c cmd _ ih =>
    refine ⟨?_, (sound_executeCommand ih.2 cmd).counted⟩
    have hsim : Simulates c hash s.db (s.db.toMap hash) := ⟨ih.1, rfl⟩
    by_cases hf : cmd.Fits c (s.db.toMap hash)
    · obtain ⟨_, s', hrun, -, hs⟩ := executeCommand_spec hsim cmd hf
      rw [hrun]
      exact hs.routed
    · obtain ⟨s', hrun, hs⟩ := executeCommand_panics hsim cmd hf
      rw [hrun]
      exact hs.routed
  | @replay s c cmd _ ih =>
    refine ⟨?_, (sound_replayCommand ih.2 cmd).counted⟩
    have hsim : Simulates c hash s.db (s.db.toMap hash) := ⟨ih.1, rfl⟩
    rw [run_onDb]
    by_cases hf : cmd.Fits c (s.db.toMap hash)
    · obtain ⟨_, db', hrun, -, hs⟩ := replayCommand_spec hsim cmd hf
      rw [hrun]
      exact hs.routed
    · obtain ⟨db', hrun, hs⟩ := replayCommand_panics hsim cmd hf
      rw [show (replayCommand hash cmd).run (ShardedDatabase.exec c) s.db = _ from hrun]
      exact hs.routed
  | @removeExpired s c _ ih =>
    refine ⟨hpurge ((ShardedDatabase.removeExpired_spec ih.1).mono fun _ _ h => ⟨h, trivial⟩),
      (sound_onDb (ShardedDatabase.sound_removeExpired ih.2)).counted⟩
  | @snapshotEntries s c _ ih =>
    exact ⟨hpurge (ShardedDatabase.snapshotEntries_spec ih.1),
      (sound_onDb (ShardedDatabase.sound_snapshotEntries ih.2)).counted⟩

/-- In every reachable state a command executes to a reply, and replays, exactly when the
deadline that it sets fits in an `Instant`, and the seconds that TTL replies in an `i64`. -/
theorem answers_iff (h : Reachable hash toJson s) (c : Clock) (cmd : Command) :
    (Answers c (executeCommand hash toJson cmd) s (TtlReply c (s.db.toMap hash) cmd) ↔
      cmd.Fits c (s.db.toMap hash) ∧ cmd.TtlFits c (s.db.toMap hash)) ∧
    (Answers c (onDb (replayCommand hash cmd)) s (fun _ => True) ↔
      cmd.Fits c (s.db.toMap hash)) := by
  obtain ⟨hr, hcounted⟩ := h.invariant
  have hsim : Simulates c hash s.db (s.db.toMap hash) := ⟨hr, rfl⟩
  refine ⟨⟨?_, ?_⟩, ⟨?_, ?_⟩⟩
  · rintro ⟨⟨reply, s', hrun, hreply⟩, -⟩
    by_cases hf : cmd.Fits c (s.db.toMap hash)
    · obtain ⟨reply', s'', hrun', hreplies, -⟩ := executeCommand_spec hsim cmd hf
      rw [hrun] at hrun'
      cases hrun'
      exact ⟨hf, (ttlReply_iff hreplies).mp hreply⟩
    · obtain ⟨s'', hrun', -⟩ := executeCommand_panics hsim cmd hf
      rw [hrun] at hrun'
      cases hrun'
  · rintro ⟨hf, httl⟩
    refine ⟨?_, (sound_executeCommand hcounted cmd).avoids⟩
    exact (executeCommand_spec hsim cmd hf).mono fun reply _ hq => (ttlReply_iff hq.1).mpr httl
  · rintro ⟨⟨reply, s', hrun, -⟩, -⟩
    by_contra hf
    obtain ⟨db', hrun', -⟩ := replayCommand_panics hsim cmd hf
    rw [run_onDb, show (replayCommand hash cmd).run (ShardedDatabase.exec c) s.db = _ from hrun']
      at hrun
    cases hrun
  · intro hf
    refine ⟨?_, (sound_replayCommand hcounted cmd).avoids⟩
    exact (ensures_onDb (replayCommand_spec hsim cmd hf)).mono fun _ _ _ => trivial

end Commands

end Kv

section Huge

/-- `SET k v EX 18446744073709551615` -/
def hugeExpire : RespFrame :=
  .array [.bulkString (asBytes "SET"), .bulkString (asBytes "k"), .bulkString (asBytes "v"),
    .bulkString (asBytes "EX"), .bulkString (asBytes "18446744073709551615")]

def freshKv (c : Clock) : Kv 0 := ⟨ShardedDatabase.new 0, ServerStats.new c⟩

/-- The state after `SET k v EX 10` in the very first state of the server. -/
def expiringKv : Kv 0 :=
  ((executeCommand (fun _ => 0) (fun _ => .ok "{}") (.set "k" [118] (some (Duration.fromSecs 10)))).run
    (Kv.exec ⟨0, 0⟩) (freshKv ⟨0, 0⟩)).2

theorem expiringKv_reachable : Kv.Reachable (fun _ => 0) (fun _ => .ok "{}") expiringKv :=
  .execute _ _ (.new _)

theorem expiringKv_toMap :
    expiringKv.db.toMap (fun _ => 0) "k" = some ⟨[118], some (Clock.after ⟨0, 0⟩ (Duration.fromSecs 10))⟩ := by
  decide +kernel

theorem expiringKv_view : view (4 * 10^9) (expiringKv.db.toMap fun _ => 0) "k" =
    some ⟨[118], some (Clock.after ⟨0, 0⟩ (Duration.fromSecs 10))⟩ := by
  rw [view_apply, expiringKv_toMap, Option.filter_some, if_pos]
  rw [alive_iff]
  rintro d ⟨⟩
  simp [Clock.after, Duration.fromSecs]

/-- Four seconds later TTL has a reply, and so has an EXPIRE; with a deadline that is too far its
replay has none. -/
theorem answers_iff_expiringKv :
    Kv.Answers ⟨4 * 10^9, 4 * 10^9⟩ (executeCommand (fun _ => 0) (fun _ => .ok "{}") (.ttl "k"))
      expiringKv (TtlReply ⟨4 * 10^9, 4 * 10^9⟩ (expiringKv.db.toMap fun _ => 0) (.ttl "k")) ∧
    Kv.Answers ⟨4 * 10^9, 4 * 10^9⟩ (executeCommand (fun _ => 0) (fun _ => .ok "{}") (.expire "k" 20))
      expiringKv (TtlReply ⟨4 * 10^9, 4 * 10^9⟩ (expiringKv.db.toMap fun _ => 0) (.expire "k" 20)) ∧
    ¬ Kv.Answers ⟨4 * 10^9, 4 * 10^9⟩
      (KvM.onDb (replayCommand (fun _ => 0) (.expire "k" 18446744073709551615))) expiringKv
      fun _ => True := by
  have h := Kv.answers_iff expiringKv_reachable ⟨4 * 10^9, 4 * 10^9⟩
  refine ⟨(h (.ttl "k")).1.mpr ⟨?_, ?_⟩, (h (.expire "k" 20)).1.mpr ⟨?_, nofun⟩, fun hanswers => ?_⟩
  · rintro _ ⟨⟩ _ ⟨⟩ _ ⟨⟩
  · rintro key entry t ⟨⟩ hentry ht
    cases expiringKv_view.symm.trans hentry
    cases ht
    simp [secsLeft, Clock.after, Duration.fromSecs]
  · rintro _ ⟨⟩ _ ⟨⟩ t ht
    have hlive : t = Clock.after ⟨4 * 10^9, 4 * 10^9⟩ (Duration.fromSecs 20) := by
      rw [expiringKv_view] at ht
      exact (Option.some.inj ht).symm
    rw [hlive]
    simp [instantLimit, Clock.after, Duration.fromSecs]
  · have hfits := (h (.expire "k" 18446744073709551615)).2.mp hanswers _ rfl _ rfl
    rw [expiringKv_view] at hfits
    have hlt := hfits _ rfl
    simp [instantLimit, Clock.after, Duration.fromSecs] at hlt

/-- An accepted command that panics in the very first state of the server. -/
theorem hugeExpire_panics : ¬ ∀ resp cmd, Command.fromResp resp = .ok cmd →
    ∀ s : Kv 0, Kv.Reachable (fun _ => 0) (fun _ => .ok "{}") s → ∀ c : Clock,
      Kv.Answers c (executeCommand (fun _ => 0) (fun _ => .ok "{}") cmd) s
        (TtlReply c (s.db.toMap fun _ => 0) cmd) := by
  intro hall
  have hcmd : Command.fromResp hugeExpire =
      .ok (.set "k" (asBytes "v") (some (Duration.fromSecs 18446744073709551615))) := by
    decide +kernel
  obtain ⟨⟨reply, s', hrun, -⟩, -⟩ := hall _ _ hcmd (freshKv ⟨0, 0⟩) (Kv.Reachable.new _) ⟨0, 0⟩
  have hsim : Simulates ⟨0, 0⟩ (fun _ => 0) (freshKv ⟨0, 0⟩).db clear :=
    ⟨fun i key h => absurd (AList.lookup_empty key) h, rfl⟩
  have hfit : ¬ Command.Fits ⟨0, 0⟩ clear
      (.set "k" (asBytes "v") (some (Duration.fromSecs 18446744073709551615))) := by
    intro h
    have := h _ rfl _ rfl _ rfl
    simp [Clock.after, Duration.fromSecs, instantLimit] at this
  obtain ⟨s'', hrun', -⟩ := Kv.executeCommand_panics hsim _ hfit
  rw [hrun] at hrun'
  cases hrun'

end Huge

end RustKV

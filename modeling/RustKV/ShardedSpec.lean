import RustKV.DatabaseSpec
import RustKV.Sharded

/-! The purpose of the store: a map from keys to values with optional deadlines, in
which an entry whose deadline is reached does not exist. `KeyOp.reply` and
`KeyOp.leaves` say what an operation on one key returns and leaves, given what is alive
under the key; the sections of a shard and the operations of the sharded store are
shown to do that, whatever dead entries they carry along. -/
namespace RustKV
open Decimal TimedMap

namespace KeyOp

/-- The deadline that an operation sets, if it sets one. -/
def deadline (c : Clock) : KeyOp → Option Entry → Option Instant
  | .set _ duration, _ => duration.map c.after
  | .setAtMs _ ts, _ => (durationUntilUnixMs c ts).map c.after
  | .expire secs, some _ => some (c.after (Duration.fromSecs secs))
  | .expireAtMs ts, some _ => (durationUntilUnixMs c ts).map c.after
  | _, _ => none

/-- The deadline, if any, fits in an `Instant`. -/
def Fits (c : Clock) (op : KeyOp) (live : Option Entry) : Prop :=
  ∀ t ∈ op.deadline c live, t < instantLimit

/-- The reply of an operation in the types of the code, from the entry that is alive under
the key. The seconds of TTL go through the cast to `i64`. -/
def reply (c : Clock) : (op : KeyOp) → Option Entry → op.Result
  | .set .., _ => .ok ()
  | .setAtMs .., _ => .ok ()
  | .get, live => .ok (live.map Timed.value)
  | .del, live => .ok (if live.isSome then 1 else 0)
  | .exists', live => .ok live.isSome
  | .expire _, live => .ok live.isSome
  | .expireAtMs _, live => .ok live.isSome
  | .ttl, live => .ok (Int64.ofInt (Database.ttlOf c live))

/-- What an operation leaves under the key. -/
def leaves (c : Clock) : KeyOp → Option Entry → Option Entry
  | .set value duration, _ => some ⟨value, duration.map c.after⟩
  | .setAtMs value ts, _ => (durationUntilUnixMs c ts).map fun d => ⟨value, some (c.after d)⟩
  | .del, _ => none
  | .expire secs, live =>
    live.map fun entry => { entry with expireAt := some (c.after (Duration.fromSecs secs)) }
  | .expireAtMs ts, live => live.bind fun entry =>
    (durationUntilUnixMs c ts).map fun d => { entry with expireAt := some (c.after d) }
  | .get, live | .exists', live | .ttl, live => live

end KeyOp

section OneShard
variable (c : Clock) (db : Database) (key : String)

/-- A section replies and leaves what it should if its deadline fits, and panics if not;
beyond that it drops only dead entries. -/
structure SectionSpec {α : Type} (fits : Prop) (reply : α) (o : Option Entry)
    (run : Option (Locked α) × Database) : Prop where
  panics : ¬ fits → run.1 = none ∧ Purge c.instant db.toMap run.2.toMap
  returns : fits → ∃ locked, run.1 = some locked ∧ locked.result = reply ∧
    locked.before = db.len ∧ locked.after = run.2.len ∧
    Effect c.instant key db.toMap run.2.toMap o

theorem sectionSpec_around {α : Type} {fits : Prop} (hf : fits) {result : KvResult α}
    {db' : Database} {o : Option Entry} (h : Effect c.instant key db.toMap db'.toMap o) :
    SectionSpec c db key fits result o (around db (some (result, db'))) :=
  ⟨absurd hf, fun _ => ⟨_, rfl, rfl, rfl, rfl, h⟩⟩

/-- A section that sets a deadline. -/
theorem sectionSpec_around_add {α : Type} {fits : Prop} {result : KvResult α}
    (duration : Duration) (hf : fits ↔ c.after duration < instantLimit)
    (entry : Instant → Entry) :
    SectionSpec c db key fits result (some (entry (c.after duration)))
      (around db ((Instant.add c.instant duration).map fun t =>
        (result, db.insert key (entry t)))) := by
  rw [Instant.add_eq]
  split_ifs with h
  · exact sectionSpec_around c db key (hf.mpr h) (Database.insert_effect c db key _)
  · exact ⟨fun _ => ⟨rfl, purge_refl _ _⟩, fun hfit => absurd (hf.mp hfit) h⟩

theorem sectionSpec_afterPurge {α : Type} {fits : Prop} (hf : fits) {result : KvResult α}
    {body : Database → Option (KvResult α × Database)} {o : Option Entry}
    (h : ∀ db, ∃ db', body db = some (result, db') ∧ Effect c.instant key db.toMap db'.toMap o) :
    SectionSpec c db key fits result o (afterPurge c db body) := by
  obtain ⟨db', hb, he⟩ := h (db.removeExpired c).2
  refine ⟨absurd hf, fun _ => ?_⟩
  simp only [afterPurge, hb]
  exact ⟨_, rfl, rfl, rfl, rfl, (Database.removeExpired_purge c db).effect he⟩

theorem sectionSpec_afterPurge_add {α : Type} {fits : Prop} {result : KvResult α}
    (duration : Duration) (hf : fits ↔ c.after duration < instantLimit)
    (entry : Instant → Entry) :
    SectionSpec c db key fits result (some (entry (c.after duration)))
      (afterPurge c db fun db => (Instant.add c.instant duration).map fun t =>
        (result, db.insert key (entry t))) := by
  rw [Instant.add_eq]
  split_ifs with h
  · exact sectionSpec_afterPurge c db key (hf.mpr h) fun db =>
      ⟨_, rfl, Database.insert_effect c db key _⟩
  · exact ⟨fun _ => ⟨rfl, Database.removeExpired_purge c db⟩, fun hfit => absurd (hf.mp hfit) h⟩

/-- The section of every operation on one key. -/
theorem keyOp_run_spec (op : KeyOp) :
    SectionSpec c db key (op.Fits c (view c.instant db.toMap key))
      (op.reply c (view c.instant db.toMap key)) (op.leaves c (view c.instant db.toMap key))
      (op.run c db key) := by
  have hnone {o : Option Entry} {op : KeyOp} (h : op.deadline c o = none) : op.Fits c o := by
    simp [KeyOp.Fits, h]
  have hsome {o : Option Entry} {op : KeyOp} {d : Duration}
      (h : op.deadline c o = some (c.after d)) :
      op.Fits c o ↔ c.after d < instantLimit := by
    simp [KeyOp.Fits, h]
  cases op with
  | set value expire =>
    cases expire with
    | none =>
      exact sectionSpec_afterPurge c db key (hnone rfl) fun db =>
        ⟨_, rfl, Database.insert_effect c db key ⟨value, none⟩⟩
    | some duration =>
      simp only [KeyOp.run, Database.set_spec]
      exact sectionSpec_afterPurge_add c db key duration (hsome rfl) fun t => ⟨value, some t⟩
  | setAtMs value ts =>
    simp only [KeyOp.run, KeyOp.leaves, Database.setAtMs]
    cases hd : durationUntilUnixMs c ts with
    | none =>
      exact sectionSpec_afterPurge c db key (hnone (by simp [KeyOp.deadline, hd])) fun db =>
        ⟨_, rfl, Database.erase_effect c db key⟩
    | some d =>
      exact sectionSpec_afterPurge_add c db key d (hsome (by simp [KeyOp.deadline, hd]))
        fun t => ⟨value, some t⟩
  | get =>
    obtain ⟨hr, he⟩ := Database.get_spec c db key
    simp only [KeyOp.run, KeyOp.reply, ← hr]
    exact sectionSpec_around c db key (hnone rfl) he
  | del =>
    obtain ⟨hr, he⟩ := Database.del_spec c db key
    simp only [KeyOp.run, KeyOp.reply, ← hr]
    exact sectionSpec_around c db key (hnone rfl) he
  | exists' =>
    obtain ⟨hr, he⟩ := Database.exists'_spec c db key
    simp only [KeyOp.run, KeyOp.reply, ← hr]
    exact sectionSpec_around c db key (hnone rfl) he
  | ttl =>
    obtain ⟨hr, he⟩ := Database.ttl_spec c db key
    simp only [KeyOp.run, KeyOp.reply, ← hr]
    exact sectionSpec_around c db key (hnone rfl) he
  | expire secs =>
    cases hv : view c.instant db.toMap key with
    | none =>
      obtain ⟨db', hr, he⟩ := Database.expire_dead c db key secs hv
      simp only [KeyOp.run, hr]
      exact sectionSpec_around c db key (hnone rfl) he
    | some entry =>
      simp only [KeyOp.run, Database.expire_alive c db key secs hv]
      exact sectionSpec_around_add c db key _ (hsome rfl) fun t => { entry with expireAt := some t }
  | expireAtMs ts =>
    cases hv : view c.instant db.toMap key with
    | none =>
      obtain ⟨db', hr, he⟩ := Database.expireAtMs_dead c db key ts hv
      simp only [KeyOp.run, hr]
      exact sectionSpec_around c db key (hnone rfl) he
    | some entry =>
      simp only [KeyOp.run, KeyOp.leaves, Option.bind_some,
        Database.expireAtMs_alive c db key ts hv]
      cases hd : durationUntilUnixMs c ts with
      | none =>
        exact sectionSpec_around c db key (hnone (by simp [KeyOp.deadline, hd]))
          (Database.erase_effect c db key)
      | some d =>
        exact sectionSpec_around_add c db key d (hsome (by simp [KeyOp.deadline, hd]))
          fun t => { entry with expireAt := some t }

end OneShard

namespace ShardedDatabase
open DbM
variable {n : ℕ} (hash : String → UInt64)

/-- The contents of the store: each key is looked up in its own shard. -/
def toMap (db : ShardedDatabase n) : TimedMap String Bytes Instant :=
  fun key => (db.shards (shardForKey hash key)).lookup key

/-- Every key is stored in its own shard. -/
def Routed (db : ShardedDatabase n) : Prop :=
  ∀ i key, (db.shards i).lookup key ≠ none → shardForKey hash key = i

def setShard (db : ShardedDatabase n) (i : Fin (n + 1)) (shard : Database) : ShardedDatabase n :=
  { db with shards := Function.update db.shards i shard }

@[simp] theorem setShard_shards (db : ShardedDatabase n) (i : Fin (n + 1)) (shard : Database) :
    (db.setShard i shard).shards = Function.update db.shards i shard := rfl

section Steps
variable {α : Type} (c : Clock) (db : ShardedDatabase n)

@[simp] theorem runAt_pure (a : α) : runAt c (pure a) db = (some a, db) := rfl

@[simp] theorem runAt_acquire (l : DbLock n) (m : LockMode) (f : Unit → DbM n α) :
    runAt c (acquire l m >>= f) db = runAt c (f ()) db := rfl

@[simp] theorem runAt_release (l : DbLock n) (m : LockMode) (f : Unit → DbM n α) :
    runAt c (release l m >>= f) db = runAt c (f ()) db := rfl

@[simp] theorem runAt_now (f : Clock → DbM n α) : runAt c (now >>= f) db = runAt c (f c) db := rfl

@[simp] theorem runAt_applyLenChange (before after : ℕ) (f : Unit → DbM n α) :
    runAt c (applyLenChange before after >>= f) db =
      runAt c (f ()) { db with keyCount := lenAfterChange db.keyCount before after } := rfl

@[simp] theorem runAt_loadLen (f : ℕ → DbM n α) :
    runAt c (loadLen >>= f) db = runAt c (f db.keyCount) db := rfl

@[simp] theorem runAt_storeLen (count : ℕ) (f : Unit → DbM n α) :
    runAt c (storeLen count >>= f) db = runAt c (f ()) { db with keyCount := count } := rfl

theorem runAt_shard (i : Fin (n + 1)) (call : ShardCall) (f : Locked call.Result → DbM n α) :
    runAt c (DbM.shard i call >>= f) db =
      match (call.run c (db.shards i)).1 with
      | none => (none, db.setShard i (call.run c (db.shards i)).2)
      | some locked => runAt c (f locked) (db.setShard i (call.run c (db.shards i)).2) := by
  refine (Prog.run_perform_bind (h := exec c) (DbAct.shard i call) f db).trans ?_
  simp only [exec, setShard]
  rcases call.run c (db.shards i) with ⟨_ | locked, shard⟩ <;> rfl

theorem runAt_bind (p : DbM n α) {β : Type} (f : α → DbM n β) :
    runAt c (p >>= f) db =
      match runAt c p db with
      | (none, db') => (none, db')
      | (some a, db') => runAt c (f a) db' := by
  refine (Prog.run_bind (h := exec c) p f db).trans ?_
  simp only [runAt]
  rcases p.run (exec c) db with ⟨_ | a, db'⟩ <;> rfl

end Steps

section Frames
variable {hash} {db : ShardedDatabase n}

theorem toMap_setShard (i : Fin (n + 1)) (shard : Database) (key : String) :
    (db.setShard i shard).toMap hash key =
      if shardForKey hash key = i then shard.lookup key else db.toMap hash key := by
  simp only [toMap, setShard_shards]
  split_ifs with h
  · rw [h, Function.update_self]
  · rw [Function.update_of_ne h]

theorem effect_setShard {t : Instant} {key : String} {shard : Database} {o : Option Entry}
    (he : Effect t key (db.shards (shardForKey hash key)).toMap shard.toMap o) :
    Effect t key (db.toMap hash) ((db.setShard (shardForKey hash key) shard).toMap hash) o := by
  refine ⟨by rw [toMap_setShard, if_pos rfl]; exact he.self, fun k hk => ?_⟩
  rw [toMap_setShard]
  split_ifs with h
  · have hother := he.other k hk
    rw [view_apply] at hother ⊢
    unfold toMap
    rwa [h]
  · exact Or.inl rfl

theorem purge_setShard {t : Instant} {i : Fin (n + 1)} {shard : Database}
    (hp : Purge t (db.shards i).toMap shard.toMap) :
    Purge t (db.toMap hash) ((db.setShard i shard).toMap hash) := by
  intro k
  rw [toMap_setShard]
  split_ifs with h
  · have hk := hp k
    rw [view_apply] at hk ⊢
    unfold toMap
    rwa [h]
  · exact Or.inl rfl

/-- A shard may be replaced by one that holds no foreign key. -/
theorem Routed.setShard (hr : Routed hash db) {i : Fin (n + 1)} {shard : Database}
    (h : ∀ key, shard.lookup key ≠ none →
      shardForKey hash key = i ∨ (db.shards i).lookup key ≠ none) :
    Routed hash (db.setShard i shard) := by
  intro j key hj
  rw [setShard_shards] at hj
  by_cases hji : j = i
  · subst hji
    rw [Function.update_self] at hj
    exact (h key hj).elim id (hr j key)
  · rw [Function.update_of_ne hji] at hj
    exact hr j key hj

theorem Routed.effect (hr : Routed hash db) {t : Instant} {key : String} {shard : Database}
    {o : Option Entry}
    (he : Effect t key (db.shards (shardForKey hash key)).toMap shard.toMap o) :
    Routed hash (db.setShard (shardForKey hash key) shard) := by
  refine hr.setShard fun k hk => ?_
  by_cases h : k = key
  · exact Or.inl (by rw [h])
  · rcases he.other k h with heq | ⟨hn, -⟩
    · exact Or.inr fun hn => hk (heq.trans hn)
    · exact absurd hn hk

theorem Routed.purge (hr : Routed hash db) {t : Instant} {i : Fin (n + 1)} {shard : Database}
    (hp : Purge t (db.shards i).toMap shard.toMap) : Routed hash (db.setShard i shard) := by
  refine hr.setShard fun k hk => Or.inr ?_
  rcases hp k with heq | ⟨hn, -⟩
  · exact fun hn => hk (heq.trans hn)
  · exact absurd hn hk

end Frames

/-- The store after a purge: routed, and the same to everybody who looks. -/
def Purged (c : Clock) (hash : String → UInt64) (db db' : ShardedDatabase n) : Prop :=
  Routed hash db' ∧ Purge c.instant (db.toMap hash) (db'.toMap hash)

section Operations
variable {hash} {c : Clock} {db : ShardedDatabase n}

/-- An operation on one key replies and leaves what it should, or panics. -/
theorem onShard_spec (hr : Routed hash db) (key : String) (op : KeyOp) :
    (¬ op.Fits c (view c.instant (db.toMap hash) key) →
      ∃ db', runAt c (onShard hash key op) db = (none, db') ∧ Purged c hash db db') ∧
    (op.Fits c (view c.instant (db.toMap hash) key) →
      Prog.Ensures (exec c) (onShard hash key op) db fun outcome db' =>
        outcome.result = op.reply c (view c.instant (db.toMap hash) key) ∧ Routed hash db' ∧
        Effect c.instant key (db.toMap hash) (db'.toMap hash)
          (op.leaves c (view c.instant (db.toMap hash) key))) := by
  have hs := keyOp_run_spec c (db.shards (shardForKey hash key)) key op
  constructor
  · intro hn
    obtain ⟨hrun, hp⟩ := hs.panics hn
    refine ⟨db.setShard (shardForKey hash key) _, ?_, hr.purge hp, purge_setShard hp⟩
    simp only [onShard, runAt_acquire, runAt_shard, ShardCall.run, hrun]
  · intro hf
    obtain ⟨locked, hrun, hres, -, -, he⟩ := hs.returns hf
    let after : ShardedDatabase n :=
      { db.setShard (shardForKey hash key)
          (KeyOp.run c (db.shards (shardForKey hash key)) key op).2 with
        keyCount := lenAfterChange db.keyCount locked.before locked.after }
    refine ⟨⟨locked.result, after.keyCount, locked.expired⟩, after, ?_, hres, hr.effect he,
      effect_setShard he⟩
    change runAt c (onShard hash key op) db = _
    simp only [onShard, runAt_acquire, runAt_shard, ShardCall.run, hrun, runAt_applyLenChange,
      runAt_loadLen, runAt_release, runAt_pure]
    rfl

/-- How many different live keys a list names. -/
def liveCount (t : Instant) (m : TimedMap String Bytes Instant) (keys : List String) : ℕ :=
  (keys.toFinset.filter fun key => (view t m key).isSome).card

/-- The map without the keys of a list. -/
def eraseAll (keys : List String) (m : TimedMap String Bytes Instant) :
    TimedMap String Bytes Instant := fun key => if key ∈ keys then none else m key

theorem eraseAll_cons (key : String) (keys : List String) (m : TimedMap String Bytes Instant) :
    eraseAll (key :: keys) m = eraseAll keys (erase key m) := by
  funext k
  by_cases hk : k = key
  · subst hk
    simp [eraseAll]
  · simp [eraseAll, hk]

theorem view_eraseAll {t : Instant} {m m' : TimedMap String Bytes Instant} (keys : List String)
    (h : view t m = view t m') : view t (eraseAll keys m) = view t (eraseAll keys m') := by
  funext k
  have hk := congrFun h k
  simp only [view_apply, eraseAll] at hk ⊢
  split_ifs
  · rfl
  · exact hk

theorem liveCount_congr {t : Instant} {m m' : TimedMap String Bytes Instant} (keys : List String)
    (h : view t m = view t m') : liveCount t m keys = liveCount t m' keys := by
  rw [liveCount, liveCount, h]

theorem liveCount_cons (t : Instant) (m : TimedMap String Bytes Instant) (key : String)
    (keys : List String) : liveCount t m (key :: keys) =
      (if (view t m key).isSome then 1 else 0) + liveCount t (erase key m) keys := by
  have hrest : (keys.toFinset.filter fun k => (view t (erase key m) k).isSome) =
      (keys.toFinset.filter fun k => (view t m k).isSome).erase key := by
    ext k
    simp only [Finset.mem_erase, view_apply]
    by_cases hk : k = key
    · subst hk
      simp
    · simp [hk]
  rw [liveCount, liveCount, hrest, List.toFinset_cons, Finset.filter_insert]
  split_ifs with hlive
  · rw [Nat.add_comm, ← Finset.card_insert_of_notMem (Finset.notMem_erase key _)]
    congr 1
    ext k
    by_cases hk : k = key <;> simp [hk]
  · rw [Finset.erase_eq_of_notMem (by simp [hlive]), Nat.zero_add]

/-- DEL counts every live key once and removes them all. -/
theorem delLoop_spec (keys : List String) (removed expired : ℕ) (hr : Routed hash db) :
    ∃ outcome db', runAt c (delLoop hash keys removed expired) db = (some outcome, db') ∧
      outcome.result = .ok (removed + liveCount c.instant (db.toMap hash) keys) ∧
      Routed hash db' ∧
      view c.instant (db'.toMap hash) = view c.instant (eraseAll keys (db.toMap hash)) := by
  induction keys generalizing removed expired db with
  | nil => exact ⟨_, db, rfl, by simp [liveCount], hr, rfl⟩
  | cons key keys ih =>
    have hs := keyOp_run_spec c (db.shards (shardForKey hash key)) key .del
    obtain ⟨locked, hrun, hres, -, -, he⟩ := hs.returns (by simp [KeyOp.Fits, KeyOp.deadline])
    have hview := (effect_setShard he).view_eq
    let after : ShardedDatabase n :=
      { db.setShard (shardForKey hash key)
          (KeyOp.run c (db.shards (shardForKey hash key)) key .del).2 with
        keyCount := lenAfterChange db.keyCount locked.before locked.after }
    let count := if (view c.instant (db.toMap hash) key).isSome then 1 else 0
    obtain ⟨outcome, db', hrun', hres', hr', hv'⟩ := @ih after (removed + count)
      (expired + (locked.before - locked.after - count)) (hr.effect he)
    refine ⟨outcome, db', ?_, ?_, hr', ?_⟩
    · rw [← hrun']
      simp only [delLoop, runAt_acquire, runAt_shard, ShardCall.run, hrun, runAt_applyLenChange]
      rw [hres]
      rfl
    · rw [hres', liveCount_cons, Nat.add_assoc]
      exact congrArg (fun k => Except.ok (removed + (count + k))) (liveCount_congr keys hview)
    · rw [hv', eraseAll_cons]
      exact view_eraseAll keys hview

theorem del_spec (keys : List String) (hr : Routed hash db) :
    ∃ outcome db', runAt c (del hash keys) db = (some outcome, db') ∧
      outcome.result = .ok (liveCount c.instant (db.toMap hash) keys) ∧ Routed hash db' ∧
      view c.instant (db'.toMap hash) = view c.instant (eraseAll keys (db.toMap hash)) := by
  obtain ⟨outcome, db', hrun, hres, hr', hv⟩ := delLoop_spec keys 0 0 hr
  refine ⟨outcome, db', ?_, by rw [hres, Nat.zero_add], hr', hv⟩
  rw [del, runAt_acquire, runAt_bind, hrun]
  rfl

/-- What one shard contributes to `keys`. -/
theorem keysLoop_spec {listOf : Fin (n + 1) → List String}
    (hl : ∀ i, (db.shards i).keys c = .ok (listOf i)) (shards : List (Fin (n + 1)))
    (acc : List String) :
    runAt c (keysLoop shards acc) db =
      (some (.ok ((acc ++ (shards.map listOf).flatten).insertionSort (· ≤ ·))), db) := by
  induction shards generalizing acc with
  | nil => simp [keysLoop]
  | cons i shards ih =>
    have hsame : db.setShard i (db.shards i) = db := by simp [setShard]
    simp only [keysLoop, runAt_acquire, runAt_shard, ShardCall.run, runAt_release, hsame, hl, ih]
    simp

/-- KEYS is the ascending list of the live keys. -/
theorem keys_spec (hr : Routed hash db) :
    runAt c keys db = (some (.ok (liveKeys c.instant (db.toMap hash))), db) := by
  choose listOf hl hnd hmem using fun i => Database.keys_spec c (db.shards i)
  have hview (i : Fin (n + 1)) (k : String) : k ∈ listOf i ↔
      shardForKey hash k = i ∧ (view c.instant (db.toMap hash) k).isSome := by
    rw [hmem]
    constructor
    · intro h
      obtain ⟨entry, he⟩ := Option.isSome_iff_exists.mp h
      have hi : shardForKey hash k = i := hr i k (by
        rw [← Database.toMap_apply, (view_eq_some_iff.mp he).1]
        simp)
      subst hi
      exact ⟨rfl, h⟩
    · rintro ⟨rfl, h⟩
      exact h
  let all := ((List.finRange (n + 1)).map listOf).flatten
  have hall : all.Nodup := by
    rw [List.nodup_flatten]
    refine ⟨fun l hl => ?_, List.pairwise_map.mpr ((List.nodup_finRange _).imp ?_)⟩
    · obtain ⟨i, -, rfl⟩ := List.mem_map.mp hl
      exact hnd i
    · intro i j hij k hi hj
      exact hij (((hview i k).mp hi).1.symm.trans ((hview j k).mp hj).1)
  have hkeys : liveKeys c.instant (db.toMap hash) = all.insertionSort (· ≤ ·) := by
    apply liveKeys_eq
    · have hnd : (all.insertionSort (· ≤ ·)).Nodup :=
        (List.perm_insertionSort _ _).nodup_iff.mpr hall
      exact (List.pairwise_insertionSort (· ≤ ·) all).imp₂ (fun _ _ h₁ h₂ => lt_of_le_of_ne h₁ h₂) hnd
    · intro k
      simp [all, hview]
  rw [keys, runAt_acquire, runAt_bind, keysLoop_spec hl, List.nil_append, hkeys]
  rfl

theorem flushLoop_spec (shards : List (Fin (n + 1))) :
    runAt c (flushLoop shards) db = (some ⟨.ok (), 0, 0⟩,
      ⟨fun i => if i ∈ shards then ∅ else db.shards i, 0⟩) := by
  induction shards generalizing db with
  | nil => simp [flushLoop]
  | cons i shards ih =>
    simp only [flushLoop, runAt_acquire, runAt_shard, ShardCall.run, Database.flushdb,
      runAt_release, ih]
    congr 2
    funext j
    by_cases hj : j = i <;> simp [hj]

theorem flushdb_spec : ∃ db', runAt c flushdb db = (some ⟨.ok (), 0, 0⟩, db') ∧
    Routed hash db' ∧ db'.toMap hash = clear := by
  refine ⟨⟨fun _ => ∅, 0⟩, ?_, fun i key h => absurd (AList.lookup_empty key) h, rfl⟩
  rw [flushdb, runAt_acquire, runAt_bind, flushLoop_spec]
  simp

/-- A loop over all shards: each shard is treated in the state it had at the start. -/
theorem runAt_onEachShard {α : Type} {call : ShardCall} {out : Database → Locked call.Result}
    {next : Database → Database} (h : ∀ shard, call.run c shard = (some (out shard), next shard))
    (init : α) (collect : α → Locked call.Result → α) :
    ∃ keyCount, runAt c (onEachShard call init collect) db =
      (some (((List.finRange (n + 1)).map db.shards).foldl
        (fun acc shard => collect acc (out shard)) init), ⟨fun i => next (db.shards i), keyCount⟩) := by
  have hloop (is : List (Fin (n + 1))) (hnd : is.Nodup) (acc : α) (db : ShardedDatabase n) :
      ∃ keyCount, runAt c (Prog.forEach is acc fun acc i => do
        acquire (.shard i) .write
        let locked ← DbM.shard i call
        applyLenChange locked.before locked.after
        release (.shard i) .write
        return collect acc locked) db =
      (some ((is.map db.shards).foldl (fun acc shard => collect acc (out shard)) acc),
        ⟨fun i => if i ∈ is then next (db.shards i) else db.shards i, keyCount⟩) := by
    induction is generalizing acc db with
    | nil => exact ⟨db.keyCount, by simp⟩
    | cons i is ih =>
      obtain ⟨hi, hnd⟩ := List.nodup_cons.mp hnd
      let after : ShardedDatabase n := ⟨(db.setShard i (next (db.shards i))).shards,
        lenAfterChange db.keyCount (out (db.shards i)).before (out (db.shards i)).after⟩
      obtain ⟨keyCount, hrun⟩ := ih hnd (collect acc (out (db.shards i))) after
      have hrest (j : Fin (n + 1)) (hj : j ≠ i) : after.shards j = db.shards j :=
        Function.update_of_ne hj ..
      have hmap : is.map after.shards = is.map db.shards :=
        List.map_congr_left fun j hj => hrest j fun e => hi (e ▸ hj)
      refine ⟨keyCount, ?_⟩
      rw [Prog.forEach_cons, runAt_bind]
      simp only [runAt_acquire, runAt_shard, h, runAt_applyLenChange, runAt_release, runAt_pure]
      refine hrun.trans ?_
      rw [hmap, List.map_cons, List.foldl_cons]
      congr 2
      funext j
      by_cases hj : j = i
      · subst hj
        simp [hi, after]
      · simp [hj, hrest j hj]
  obtain ⟨keyCount, hrun⟩ := hloop _ (List.nodup_finRange (n + 1)) init db
  exact ⟨keyCount, by simpa [onEachShard] using hrun⟩

/-- Every shard may be purged. -/
theorem purge_shards {t : Instant} {shards : Fin (n + 1) → Database} {keyCount : ℕ}
    (hr : Routed hash db) (h : ∀ i, Purge t (db.shards i).toMap (shards i).toMap) :
    Routed hash ⟨shards, keyCount⟩ ∧
      Purge t (db.toMap hash) (toMap hash (⟨shards, keyCount⟩ : ShardedDatabase n)) := by
  refine ⟨fun i key hk => hr i key fun hn => hk ?_, fun key => h _ key⟩
  rcases h i key with heq | ⟨hn', -⟩
  · exact heq.trans hn
  · exact hn'

theorem purgeLoop_ensures {α : Type} (hr : Routed hash db) {call : ShardCall}
    {out : Database → Locked call.Result} {next : Database → Database}
    (h : ∀ shard, call.run c shard = (some (out shard), next shard))
    (hp : ∀ shard : Database, Purge c.instant shard.toMap (next shard).toMap)
    (init : α) (collect : α → Locked call.Result → α) :
    Prog.Ensures (exec c) (onEachShard call init collect) db fun acc db' =>
      acc = ((List.finRange (n + 1)).map db.shards).foldl
        (fun acc shard => collect acc (out shard)) init ∧ Purged c hash db db' := by
  obtain ⟨keyCount, hrun⟩ := runAt_onEachShard h init collect
  exact ⟨_, _, hrun, rfl, purge_shards hr fun i => hp (db.shards i)⟩

theorem infoSnapshot_spec (hr : Routed hash db) :
    Prog.Ensures (exec c) infoSnapshot db fun _ db' => Purged c hash db db' := by
  refine Prog.ensures_perform_bind rfl ?_
  refine Prog.ensures_bind (purgeLoop_ensures hr (fun _ => rfl) (Database.removeExpired_purge c)
    _ _) fun _ db' h => ?_
  exact ⟨_, db', rfl, h.2⟩

theorem removeExpired_spec (hr : Routed hash db) :
    Prog.Ensures (exec c) removeExpired db fun _ db' => Purged c hash db db' := by
  refine Prog.ensures_perform_bind rfl ?_
  refine Prog.ensures_bind (purgeLoop_ensures hr (fun _ => rfl) (Database.removeExpired_purge c)
    _ _) fun _ db' h => ?_
  exact ⟨_, db', rfl, h.2⟩

theorem lookup_retain_alive (shard : Database) (key : String) :
    (shard.retain fun _ entry => entry.expireAt.all fun t => decide (c.instant < t)).lookup key =
      view c.instant shard.toMap key := Database.lookup_retain _ shard key

theorem mem_snapshotOf (now : Clock) (shard : Database) (e : DbSnapshotEntry) :
    e ∈ snapshotOf now shard ↔
      ∃ entry, shard.lookup e.key = some entry ∧ e = snapshotEntry now e.key entry := by
  simp only [snapshotOf, List.mem_map, Database.lookup_eq_some_iff]
  constructor
  · rintro ⟨⟨key, entry⟩, hmem, rfl⟩
    exact ⟨entry, hmem, rfl⟩
  · rintro ⟨entry, hmem, he⟩
    exact ⟨⟨e.key, entry⟩, hmem, he.symm⟩

/-- The entries of a snapshot: one for each live key, in ascending order of the keys. -/
structure SnapshotOf (now : Clock) (m : TimedMap String Bytes Instant)
    (entries : List DbSnapshotEntry) : Prop where
  ascending : entries.Pairwise fun left right => left.key < right.key
  mem_iff : ∀ e, e ∈ entries ↔
    ∃ entry, view now.instant m e.key = some entry ∧ e = snapshotEntry now e.key entry

/-- The shard after the purge of `snapshot_entries`. -/
def retainAlive (now : Clock) (shard : Database) : Database :=
  shard.retain fun _ entry => entry.expireAt.all fun t => decide (now.instant < t)

theorem collected_eq (shards : List Database) (acc : List DbSnapshotEntry × ℕ)
    (count : Database → ℕ) :
    (shards.foldl (fun acc shard => (acc.1 ++ snapshotOf c (retainAlive c shard),
      acc.2 + count shard)) acc).1 =
      acc.1 ++ (shards.map fun shard => snapshotOf c (retainAlive c shard)).flatten := by
  induction shards generalizing acc with
  | nil => simp
  | cons shard shards ih => simp [ih]

theorem snapshotOf_collected (hr : Routed hash db) :
    SnapshotOf c (db.toMap hash)
      ((((List.finRange (n + 1)).map db.shards).map fun shard =>
        snapshotOf c (retainAlive c shard)).flatten.insertionSort
          fun left right => left.key ≤ right.key) := by
  have hmem (i : Fin (n + 1)) (e : DbSnapshotEntry) :
      e ∈ snapshotOf c (retainAlive c (db.shards i)) ↔ shardForKey hash e.key = i ∧
        ∃ entry, view c.instant (db.toMap hash) e.key = some entry ∧
          e = snapshotEntry c e.key entry := by
    rw [mem_snapshotOf]
    simp only [retainAlive, lookup_retain_alive]
    constructor
    · rintro ⟨entry, hv, he⟩
      have hi : shardForKey hash e.key = i := hr i e.key (by
        rw [← Database.toMap_apply, (view_eq_some_iff.mp hv).1]
        simp)
      subst hi
      exact ⟨rfl, entry, hv, he⟩
    · rintro ⟨rfl, entry, hv, he⟩
      exact ⟨entry, hv, he⟩
  have hne : (((List.finRange (n + 1)).map db.shards).map fun shard =>
      snapshotOf c (retainAlive c shard)).flatten.Pairwise fun l r => l.key ≠ r.key := by
    rw [List.map_map, List.pairwise_flatten]
    refine ⟨fun l hl => ?_, List.pairwise_map.mpr ((List.nodup_finRange _).imp ?_)⟩
    · obtain ⟨i, -, rfl⟩ := List.mem_map.mp hl
      exact List.pairwise_map.mpr (retainAlive c (db.shards i)).nodupKeys.pairwise_ne
    · intro i j hij l hl r hr h
      exact hij (((hmem i l).mp hl).1.symm.trans (h ▸ ((hmem j r).mp hr).1))
  refine ⟨?_, fun e => ?_⟩
  · have : Std.Total fun l r : DbSnapshotEntry => l.key ≤ r.key := ⟨fun l r => le_total l.key r.key⟩
    have : IsTrans DbSnapshotEntry fun l r => l.key ≤ r.key := ⟨fun _ _ _ => le_trans⟩
    refine (List.pairwise_insertionSort (fun l r : DbSnapshotEntry => l.key ≤ r.key) _).imp₂
      (fun _ _ h₁ h₂ => lt_of_le_of_ne h₁ h₂) ?_
    exact ((List.perm_insertionSort _ _).pairwise_iff fun h => Ne.symm h).mpr hne
  · rw [List.mem_insertionSort, List.mem_flatten]
    constructor
    · rintro ⟨l, hl, he⟩
      obtain ⟨shard, hs, rfl⟩ := List.mem_map.mp hl
      obtain ⟨i, -, rfl⟩ := List.mem_map.mp hs
      exact ((hmem i e).mp he).2
    · intro h
      exact ⟨_, List.mem_map_of_mem (List.mem_map_of_mem (List.mem_finRange _)),
        (hmem _ e).mpr ⟨rfl, h⟩⟩

theorem snapshotEntries_spec (hr : Routed hash db) :
    Prog.Ensures (exec c) snapshotEntries db fun snapshot db' => Purged c hash db db' ∧
      SnapshotOf c (db.toMap hash) snapshot.entries := by
  refine Prog.ensures_perform_bind rfl (Prog.ensures_perform_bind rfl ?_)
  refine Prog.ensures_bind (purgeLoop_ensures hr (fun _ => rfl) (fun shard key => ?_) _ _)
    fun acc db' h => ⟨_, db', rfl, h.2, ?_⟩
  · rw [Database.toMap_apply, Database.toMap_apply, lookup_retain_alive]
    exact purge_view c.instant shard.toMap key
  · have hacc : acc.1 = (((List.finRange (n + 1)).map db.shards).map fun shard =>
        snapshotOf c (retainAlive c shard)).flatten := by
      rw [h.1]
      exact collected_eq _ ([], 0) fun shard => shard.len - (retainAlive c shard).len
    change SnapshotOf c (db.toMap hash) (acc.1.insertionSort _)
    rw [hacc]
    exact snapshotOf_collected hr

end Operations

end ShardedDatabase

end RustKV

import Mathlib.Algebra.BigOperators.Fin
import Mathlib.Algebra.Order.BigOperators.Group.Finset
import RustKV.ShardedSpec

/-! The arithmetic of the sharded store. `apply_len_change` never takes more from the key
counter than it holds, because the counter is never less than the number of entries that
are stored, not even after an operation that panicked half-way. -/
namespace RustKV
open Decimal TimedMap

/-- Every section reports the size of the shard before and after. -/
theorem ShardCall.run_len (c : Clock) (shard : Database) (call : ShardCall) :
    ((call.run c shard).1 = none → (call.run c shard).2.len ≤ shard.len) ∧
      ∀ locked, (call.run c shard).1 = some locked →
        locked.before = shard.len ∧ locked.after = (call.run c shard).2.len := by
  have hpurge {α : Type} (body : Database → Option (KvResult α × Database)) :
      ((afterPurge c shard body).1 = none → (afterPurge c shard body).2.len ≤ shard.len) ∧
        ∀ locked, (afterPurge c shard body).1 = some locked →
          locked.before = shard.len ∧ locked.after = (afterPurge c shard body).2.len := by
    unfold afterPurge
    rcases hb : body (shard.removeExpired c).2 with _ | ⟨result, db'⟩
    · simp only [hb]
      exact ⟨fun _ => List.length_filter_le .., by simp⟩
    · simp [hb]
  have haround {α : Type} (o : Option (KvResult α × Database)) :
      ((around shard o).1 = none → (around shard o).2.len ≤ shard.len) ∧
        ∀ locked, (around shard o).1 = some locked →
          locked.before = shard.len ∧ locked.after = (around shard o).2.len := by
    rcases o with _ | ⟨result, db'⟩ <;> simp [around]
  cases call with
  | key key op =>
    cases op with
    | set | setAtMs => exact hpurge _
    | get | del | exists' | expire | expireAtMs | ttl => exact haround _
  | keys | flushdb | infoSnapshot | removeExpired | snapshotEntries =>
    refine ⟨fun h => by simp [ShardCall.run] at h, ?_⟩
    rintro locked hl
    simp only [ShardCall.run, Option.some.injEq] at hl ⊢
    simp [← hl]

namespace ShardedDatabase
open DbM
variable {n : ℕ} {α : Type}

/-- The number of entries in all shards. -/
def stored (db : ShardedDatabase n) : ℕ := ∑ i, (db.shards i).len

/-- The counter covers what is stored. -/
def Counted (db : ShardedDatabase n) : Prop := db.stored ≤ db.keyCount

theorem counted_new (n : ℕ) : Counted (new n) := by
  simp [Counted, stored, new, Database.new, Database.len]

theorem len_le_stored (db : ShardedDatabase n) (i : Fin (n + 1)) :
    (db.shards i).len ≤ db.stored :=
  Finset.single_le_sum (f := fun i => (db.shards i).len) (fun _ _ => Nat.zero_le _)
    (Finset.mem_univ i)

theorem stored_setShard (db : ShardedDatabase n) (i : Fin (n + 1)) (shard : Database) :
    (db.setShard i shard).stored + (db.shards i).len = db.stored + shard.len := by
  have hrest : ∑ j ∈ Finset.univ.erase i, ((db.setShard i shard).shards j).len =
      ∑ j ∈ Finset.univ.erase i, (db.shards j).len := by
    refine Finset.sum_congr rfl fun j hj => ?_
    rw [setShard_shards, Function.update_of_ne (Finset.ne_of_mem_erase hj)]
  have hnew := Finset.add_sum_erase Finset.univ (fun j => ((db.setShard i shard).shards j).len)
    (Finset.mem_univ i)
  have hold := Finset.add_sum_erase Finset.univ (fun j => (db.shards j).len) (Finset.mem_univ i)
  simp only [setShard_shards, Function.update_self] at hnew hrest
  simp only [stored, setShard_shards]
  omega

/-- A step that takes more from the counter than it holds. -/
def Underflows : DbAct n → ShardedDatabase n → Prop
  | .applyLenChange before after, db => after < before ∧ db.keyCount < before - after
  | _, _ => False

/-- Run alone, the program does no step that underflows, and the counter covers what it
leaves. -/
structure Sound (c : Clock) (p : DbM n α) (db : ShardedDatabase n) : Prop where
  avoids : Prog.Avoids (exec c) Underflows p db
  counted : Counted (runAt c p db).2

section Rules
variable {c : Clock} {db : ShardedDatabase n} {β : Type}

theorem sound_pure (a : α) (h : Counted db) : Sound c (pure a : DbM n α) db := ⟨trivial, h⟩

theorem sound_bind {p : DbM n α} {f : α → DbM n β} (hp : Sound c p db)
    (hf : ∀ a db', runAt c p db = (some a, db') → Counted db' → Sound c (f a) db') :
    Sound c (p >>= f) db := by
  have hnext (a : α) (db' : ShardedDatabase n) (ha : runAt c p db = (some a, db')) :=
    hf a db' ha (by simpa [ha] using hp.counted)
  refine ⟨Prog.avoids_bind hp.avoids fun a db' ha => (hnext a db' ha).avoids, ?_⟩
  rw [runAt_bind]
  rcases hr : runAt c p db with ⟨_ | a, db'⟩
  · simpa [hr] using hp.counted
  · exact (hnext a db' hr).counted

theorem sound_acquire {l : DbLock n} {m : LockMode} {f : Unit → DbM n α} (h : Sound c (f ()) db) :
    Sound c (acquire l m >>= f) db :=
  ⟨Prog.avoids_perform_bind id (by rintro _ _ ⟨⟩; exact h.avoids), h.counted⟩

theorem sound_release {l : DbLock n} {m : LockMode} {f : Unit → DbM n α} (h : Sound c (f ()) db) :
    Sound c (release l m >>= f) db :=
  ⟨Prog.avoids_perform_bind id (by rintro _ _ ⟨⟩; exact h.avoids), h.counted⟩

theorem sound_now {f : Clock → DbM n α} (h : Sound c (f c) db) : Sound c (now >>= f) db :=
  ⟨Prog.avoids_perform_bind id (by rintro _ _ ⟨⟩; exact h.avoids), h.counted⟩

theorem sound_loadLen {f : ℕ → DbM n α} (h : Sound c (f db.keyCount) db) :
    Sound c (loadLen >>= f) db :=
  ⟨Prog.avoids_perform_bind id (by rintro _ _ ⟨⟩; exact h.avoids), h.counted⟩

/-- A section and the update of the counter after it. -/
theorem sound_section {i : Fin (n + 1)} {call : ShardCall} {f : Locked call.Result → Unit → DbM n α}
    (h : Counted db)
    (hf : ∀ locked db', Counted db' → Sound c (f locked ()) db') :
    Sound c (DbM.shard i call >>= fun locked =>
      applyLenChange locked.before locked.after >>= f locked) db := by
  have hlen := call.run_len c (db.shards i)
  have hstored := stored_setShard db i (call.run c (db.shards i)).2
  have hle := len_le_stored db i
  unfold Counted at h
  rcases hr : call.run c (db.shards i) with ⟨_ | locked, shard⟩ <;> rw [hr] at hlen hstored <;>
    dsimp only at hlen hstored
  · refine ⟨Prog.avoids_perform_bind id ?_, ?_⟩
    · rintro locked db' hl
      simp only [exec, hr] at hl
      cases hl
    · rw [runAt_shard, hr]
      have := hlen.1 rfl
      change (db.setShard i shard).stored ≤ db.keyCount
      omega
  · obtain ⟨hb, ha⟩ := hlen.2 locked rfl
    have hnext : Sound c (f locked ()) { db.setShard i shard with
        keyCount := lenAfterChange db.keyCount locked.before locked.after } := by
      refine hf locked _ ?_
      change (db.setShard i shard).stored ≤ lenAfterChange db.keyCount locked.before locked.after
      simp only [lenAfterChange]
      split_ifs <;> omega
    refine ⟨Prog.avoids_perform_bind id ?_, ?_⟩
    · rintro locked' db' hl
      simp only [exec, hr] at hl
      cases hl
      refine Prog.avoids_perform_bind ?_ (by rintro _ _ ⟨⟩; exact hnext.avoids)
      rintro ⟨_, hlt⟩
      change db.keyCount < _ at hlt
      omega
    · rw [runAt_shard, hr]
      exact hnext.counted

/-- A section that leaves its shard as it is. -/
theorem sound_read {i : Fin (n + 1)} {call : ShardCall} {f : Locked call.Result → DbM n α}
    (hsame : ∀ shard, (call.run c shard).2 = shard)
    (h : Counted db) (hf : ∀ locked, Sound c (f locked) db) :
    Sound c (DbM.shard i call >>= f) db := by
  have hset : db.setShard i (db.shards i) = db := by simp [setShard]
  refine ⟨Prog.avoids_perform_bind id ?_, ?_⟩
  · rintro locked db' hl
    have hdb : db' = db.setShard i (call.run c (db.shards i)).2 := (Prod.mk.inj hl).2.symm
    rw [hdb, hsame, hset]
    exact (hf locked).avoids
  · rw [runAt_shard, hsame, hset]
    rcases (call.run c (db.shards i)).1 with _ | locked
    · exact h
    · exact (hf locked).counted

end Rules

section Operations
variable {hash : String → UInt64} {c : Clock} {db : ShardedDatabase n}

theorem sound_onShard (h : Counted db) (key : String) (op : KeyOp) :
    Sound c (onShard hash key op) db := by
  refine sound_acquire (sound_acquire (sound_section h fun locked db' h' => ?_))
  exact sound_loadLen (sound_release (sound_release (sound_pure _ h')))

theorem sound_delLoop (h : Counted db) (keys : List String) (removed expired : ℕ) :
    Sound c (delLoop hash keys removed expired) db := by
  induction keys generalizing db removed expired with
  | nil => exact sound_loadLen (sound_pure _ h)
  | cons key keys ih =>
    refine sound_acquire (sound_section h fun locked db' h' => ?_)
    obtain ⟨error | count, before, after, purged⟩ := locked
    · exact sound_loadLen (sound_release (sound_pure _ h'))
    · exact sound_release (ih h' _ _)

theorem sound_del (h : Counted db) (keys : List String) : Sound c (del hash keys) db :=
  sound_acquire (sound_bind (sound_delLoop h keys 0 0) fun _ _ _ h' =>
    sound_release (sound_pure _ h'))

theorem sound_keysLoop (h : Counted db) (shards : List (Fin (n + 1))) (keys : List String) :
    Sound c (keysLoop shards keys) db := by
  induction shards generalizing keys with
  | nil => exact sound_pure _ h
  | cons i shards ih =>
    refine sound_acquire (sound_read (fun _ => rfl) h fun locked => sound_release ?_)
    obtain ⟨error | more, before, after, purged⟩ := locked
    · exact sound_pure _ h
    · exact ih _

theorem sound_keys (h : Counted db) : Sound c (keys : DbM n _) db :=
  sound_acquire (sound_bind (sound_keysLoop h _ _) fun _ _ _ h' => sound_release (sound_pure _ h'))

theorem avoids_flushLoop (shards : List (Fin (n + 1))) (db : ShardedDatabase n) :
    Prog.Avoids (exec c) Underflows (flushLoop shards) db := by
  induction shards generalizing db with
  | nil => exact ⟨id, fun _ _ _ => trivial⟩
  | cons i shards ih =>
    exact ⟨id, fun _ _ _ => ⟨id, fun locked db' hl => by
      cases hl
      exact ⟨id, fun _ _ _ => ih _⟩⟩⟩

theorem sound_flushdb : Sound c flushdb db := by
  constructor
  · exact Prog.avoids_perform_bind id fun _ _ _ => Prog.avoids_bind (avoids_flushLoop _ _)
      fun _ _ _ => ⟨id, fun _ _ _ => trivial⟩
  · rw [flushdb, runAt_acquire, runAt_bind, flushLoop_spec]
    simp [runAt_release, Counted, stored, Database.len]

theorem sound_onEachShard (h : Counted db) {call : ShardCall} (init : α)
    (collect : α → Locked call.Result → α) : Sound c (onEachShard (n := n) call init collect) db := by
  unfold onEachShard
  generalize List.finRange (n + 1) = shards
  induction shards generalizing db init with
  | nil => exact sound_pure _ h
  | cons i shards ih =>
    rw [Prog.forEach_cons]
    refine sound_bind (sound_acquire (sound_section h fun locked db' h' => ?_))
      fun _ _ _ h' => ih h' _
    exact sound_release (sound_pure _ h')

theorem sound_infoSnapshot (h : Counted db) : Sound c infoSnapshot db :=
  sound_acquire (sound_bind (sound_onEachShard h _ _) fun _ _ _ h' =>
    sound_loadLen (sound_release (sound_pure _ h')))

theorem sound_removeExpired (h : Counted db) : Sound c removeExpired db :=
  sound_acquire (sound_bind (sound_onEachShard h _ _) fun _ _ _ h' =>
    sound_loadLen (sound_release (sound_pure _ h')))

theorem sound_snapshotEntries (h : Counted db) : Sound c snapshotEntries db :=
  sound_acquire (sound_now (sound_bind (sound_onEachShard h _ _) fun _ _ _ h' =>
    sound_loadLen (sound_release (sound_pure _ h'))))

end Operations

end ShardedDatabase

end RustKV

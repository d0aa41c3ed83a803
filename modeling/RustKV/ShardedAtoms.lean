import RustKV.ShardedCounts
import RustKV.ShardedStages

/-! The purpose of a call beside other tasks: a list of atomic operations on one abstract map. A
DEL of several keys is its single-key deletions; every other call is one operation. -/
namespace RustKV
open Decimal TimedMap Prog ShardedDatabase

/-- An atomic operation on the abstract map. -/
inductive Atom where
  | key (key : String) (op : KeyOp)
  | keys
  | flushdb
  | purge (purger : Purger)

/-- What an atomic operation returns; a purge returns the entries that it finds alive. -/
inductive AtomReply where
  | reply (reply : DbReply)
  | alive (entries : List DbSnapshotEntry)

/-- The entries that are alive, in ascending order of the keys. -/
noncomputable def liveEntries (c : Clock) (m : TimedMap String Bytes Instant) :
    List DbSnapshotEntry :=
  (liveKeys c.instant m).filterMap fun key => (view c.instant m key).map (snapshotEntry c key)

noncomputable def Atom.spec (c : Clock) (m : TimedMap String Bytes Instant) :
    Atom → AtomReply × TimedMap String Bytes Instant
  | .key k op => (.reply (op.wrap (op.reply c (view c.instant m k))),
      Function.update m k (op.leaves c (view c.instant m k)))
  | .keys => (.reply (.list (.ok (liveKeys c.instant m))), m)
  | .flushdb => (.reply (.unit (.ok ())), clear)
  | .purge _ => (.alive (liveEntries c m), m)

/-- The operations that concern all keys. -/
def Atom.IsWhole : Atom → Prop
  | .key .. => False
  | _ => True

/-- The memory that a stored entry is estimated to take. -/
def DbSnapshotEntry.bytes (e : DbSnapshotEntry) : ℕ :=
  Database.stringSize + (asBytes e.key).length + Database.entrySize + e.value.length

/-- The reply with another key count, if it reports one. -/
def CallReply.withKeyCount (keyCount : ℕ) : CallReply → CallReply
  | .reply r => .reply r
  | .removed expiredCount _ => .removed expiredCount keyCount
  | .info i => .info { i with keyCount := keyCount }
  | .snapshot s => .snapshot { s with keyCount := keyCount }

namespace DbCall

/-- The atomic operations of a call. -/
def atoms : DbCall → List Atom
  | .op .keys => [.keys]
  | .op .flushdb => [.flushdb]
  | .op o => o.sections.map fun work => .key work.1 work.2
  | .purge purger => [.purge purger]

/-- How the result of a call comes from the replies of its atomic operations. -/
def Returns : DbCall → List AtomReply → CallReply → Prop
  | .op (.del _), replies, .reply r => ∃ counts : List ℕ,
      replies = counts.map (fun k => .reply (.count (.ok k))) ∧ r = .count (.ok counts.sum)
  | .op _, [.reply r'], .reply r => r = r'
  | .purge .removeExpired, [.alive entries], .removed _ keyCount => keyCount = entries.length
  | .purge .infoSnapshot, [.alive entries], .info i =>
      i.memoryEstimateBytes = (entries.map DbSnapshotEntry.bytes).sum ∧
        i.keyCount = entries.length
  | .purge .snapshotEntries, [.alive entries], .snapshot s =>
      s.entries = entries ∧ s.keyCount = entries.length
  | _, _, _ => False

/-- The result of a call where the counter of the store may be wrong: the key count that it
reports is vouched for only if the counter is right (`exact`). -/
def ReturnsIf (exact : Prop) (call : DbCall) (replies : List AtomReply) (r : CallReply) : Prop :=
  ∃ keyCount, call.Returns replies (r.withKeyCount keyCount) ∧
    (exact → r.withKeyCount keyCount = r)

theorem ReturnsIf.returns {exact : Prop} {call : DbCall} {replies : List AtomReply} {r : CallReply}
    (h : call.ReturnsIf exact replies r) (hexact : exact) : call.Returns replies r := by
  obtain ⟨keyCount, hr, hsame⟩ := h
  rwa [hsame hexact] at hr

theorem ReturnsIf.mono {exact exact' : Prop} (h : exact → exact') {call : DbCall}
    {replies : List AtomReply} {r : CallReply} (hr : call.ReturnsIf exact' replies r) :
    call.ReturnsIf exact replies r := by
  obtain ⟨keyCount, hr, hsame⟩ := hr
  exact ⟨keyCount, hr, fun he => hsame (h he)⟩

/-- An operation reports no key count. -/
theorem returnsIf_op {exact : Prop} {o : DbOp} {replies : List AtomReply} {r : CallReply} :
    (DbCall.op o).ReturnsIf exact replies r ↔ (DbCall.op o).Returns replies r := by
  cases r with
  | reply r => exact ⟨fun ⟨_, h, _⟩ => h, fun h => ⟨0, h, fun _ => rfl⟩⟩
  | removed | info | snapshot =>
    cases o <;> simp [ReturnsIf, Returns, CallReply.withKeyCount]

end DbCall

section Entries
variable {c : Clock} {m m' : TimedMap String Bytes Instant}

theorem liveEntries_congr (h : view c.instant m = view c.instant m') :
    liveEntries c m = liveEntries c m' := by
  rw [liveEntries, liveEntries, liveKeys_congr h, h]

/-- A snapshot is the list of the live entries. -/
theorem ShardedDatabase.SnapshotOf.eq_liveEntries {entries : List DbSnapshotEntry} (h : SnapshotOf c m entries) :
    entries = liveEntries c m := by
  have hkeys : liveKeys c.instant m = entries.map DbSnapshotEntry.key := by
    refine liveKeys_eq (List.pairwise_map.mpr h.ascending) fun key => ?_
    simp only [List.mem_map, Option.isSome_iff_exists]
    constructor
    · rintro ⟨e, he, rfl⟩
      obtain ⟨entry, hv, -⟩ := (h.mem_iff e).mp he
      exact ⟨entry, hv⟩
    · rintro ⟨entry, hv⟩
      exact ⟨snapshotEntry c key entry, (h.mem_iff _).mpr ⟨entry, hv, rfl⟩, rfl⟩
  have hself : ∀ e ∈ entries, (view c.instant m e.key).map (snapshotEntry c e.key) = some e := by
    intro e he
    obtain ⟨entry, hv, hentry⟩ := (h.mem_iff e).mp he
    rw [hv, Option.map_some, ← hentry]
  rw [liveEntries, hkeys, List.filterMap_map]
  clear hkeys h
  induction entries with
  | nil => rfl
  | cons e entries ih =>
    obtain ⟨he, hrest⟩ := List.forall_mem_cons.mp hself
    rw [List.filterMap_cons, Function.comp_apply, he, ← ih hrest]

theorem view_atom_spec_congr (h : view c.instant m = view c.instant m') (atom : Atom) :
    (atom.spec c m).1 = (atom.spec c m').1 ∧
      view c.instant (atom.spec c m).2 = view c.instant (atom.spec c m').2 := by
  cases atom with
  | key key op => simp only [Atom.spec, view_update, h, and_self]
  | keys => exact ⟨by simp only [Atom.spec, liveKeys_congr h], h⟩
  | flushdb => exact ⟨rfl, rfl⟩
  | purge => exact ⟨by simp only [Atom.spec, liveEntries_congr h], h⟩

end Entries

section Sections
variable {n : ℕ} {hash : String → UInt64} {c : Clock} {db : ShardedDatabase n}
  {m : TimedMap String Bytes Instant} {key : String} {op : KeyOp}

/-- The section of an operation on one key does what the operation does on the abstract map. -/
theorem Simulates.of_section (h : Simulates c hash db m) {locked : Locked op.Result}
    {shard : Database}
    (hrun : op.run c (db.shards (shardForKey hash key)) key = (some locked, shard)) :
    AtomReply.reply (op.wrap locked.result) = ((Atom.key key op).spec c m).1 ∧
      Simulates c hash (db.setShard (shardForKey hash key) shard) ((Atom.key key op).spec c m).2 := by
  have hs := keyOp_run_spec c (db.shards (shardForKey hash key)) key op
  have hview : view c.instant (db.shards (shardForKey hash key)).toMap key =
      view c.instant m key := congrFun h.view_eq key
  rw [hrun, hview] at hs
  have hfits : op.Fits c (view c.instant m key) := by
    by_contra hf
    cases (hs.panics hf).1
  obtain ⟨locked', hl, hres, -, -, he⟩ := hs.returns hfits
  cases hl
  refine ⟨by rw [hres]; rfl, h.routed.effect he, ?_⟩
  rw [(effect_setShard he).view_eq]
  simp only [Atom.spec, view_update, h.view_eq]

/-- A section that panics does nothing to be seen. -/
theorem Simulates.of_panic (h : Simulates c hash db m) {shard : Database}
    (hrun : op.run c (db.shards (shardForKey hash key)) key = (none, shard)) :
    Simulates c hash (db.setShard (shardForKey hash key) shard) m := by
  have hs := keyOp_run_spec c (db.shards (shardForKey hash key)) key op
  rw [hrun] at hs
  have hfits : ¬ op.Fits c (view c.instant (db.shards (shardForKey hash key)).toMap key) := by
    intro hf
    obtain ⟨locked, hl, -⟩ := hs.returns hf
    cases hl
  obtain ⟨-, hp⟩ := hs.panics hfits
  exact ⟨h.routed.purge hp, (purge_setShard hp).view_eq.trans h.view_eq⟩

end Sections

section Walks
variable {n : ℕ} {hash : String → UInt64} {c : Clock} {db : ShardedDatabase n}
  {m : TimedMap String Bytes Instant}

theorem removeExpired_eq (shard : Database) :
    (shard.removeExpired c).2 = retainAlive c shard := by
  change shard.retain (fun _ entry => !Entry.isExpired c entry) = _
  rw [retainAlive]
  congr 1
  funext key entry
  rw [Entry.isExpired_eq, Bool.not_not]
  rfl

theorem collected_perm (hr : Routed hash db) :
    (((List.finRange (n + 1)).map db.shards).map fun shard =>
      snapshotOf c (retainAlive c shard)).flatten.Perm (liveEntries c (db.toMap hash)) := by
  rw [← (snapshotOf_collected hr).eq_liveEntries]
  exact (List.perm_insertionSort _ _).symm

/-- After a purge the number of stored entries is that of the live ones. -/
theorem stored_retainAlive (hr : Routed hash db) (keyCount : ℕ) :
    stored (⟨fun i => retainAlive c (db.shards i), keyCount⟩ : ShardedDatabase n) =
      (liveEntries c (db.toMap hash)).length := by
  rw [← (collected_perm hr).length_eq, List.length_flatten, List.map_map, List.map_map, stored]
  simp only [Function.comp_def, snapshotOf, List.length_map]
  exact (Fin.sum_univ_def _).trans rfl

/-- The loops that purge keep a counter that is right. -/
theorem onEachShard_counted {α : Type} {call : ShardCall} {out : Database → Locked call.Result}
    {next : Database → Database} (h : ∀ shard, call.run c shard = (some (out shard), next shard))
    (hex : db.keyCount = db.stored) (init : α) (collect : α → Locked call.Result → α) :
    Ensures (exec c) (onEachShard call init collect) db fun _ db' => db'.keyCount = db'.stored := by
  unfold onEachShard
  generalize List.finRange (n + 1) = shards
  induction shards generalizing db init with
  | nil => exact ensures_pure hex
  | cons i shards ih =>
    rw [forEach_cons]
    refine ensures_bind (P := fun _ db' => db'.keyCount = db'.stored) ?_ fun _ _ h' => ih h' _
    obtain ⟨hbefore, hafter⟩ := (call.run_len c (db.shards i)).2 (out (db.shards i)) (by rw [h])
    rw [h] at hafter
    dsimp only at hafter
    have hstored := stored_setShard db i (next (db.shards i))
    have hle := len_le_stored db i
    have hshard : exec c (.shard i call) db =
        (some (out (db.shards i)), db.setShard i (next (db.shards i))) := by
      simp only [exec, h]
      rfl
    refine ensures_perform_bind rfl (ensures_perform_bind hshard (ensures_perform_bind rfl
      (ensures_perform_bind rfl (ensures_pure ?_))))
    · change lenAfterChange db.keyCount (out (db.shards i)).before (out (db.shards i)).after =
        (db.setShard i (next (db.shards i))).stored
      simp only [lenAfterChange]
      split_ifs <;> omega

/-- What the loops that purge leave. -/
theorem purgeLoop_returns {α : Type} (hr : Routed hash db) {call : ShardCall}
    {out : Database → Locked call.Result} {next : Database → Database}
    (h : ∀ shard, call.run c shard = (some (out shard), next shard))
    (hnext : ∀ shard, next shard = retainAlive c shard)
    (init : α) (collect : α → Locked call.Result → α) :
    Ensures (exec c) (onEachShard call init collect) db fun acc db' =>
      acc = ((List.finRange (n + 1)).map db.shards).foldl
        (fun acc shard => collect acc (out shard)) init ∧
      Purged c hash db db' ∧ (db.keyCount = db.stored →
        db'.keyCount = (liveEntries c (db.toMap hash)).length) := by
  obtain ⟨keyCount, hrun⟩ := runAt_onEachShard h init collect
  have hpurge (shard : Database) : Purge c.instant shard.toMap (next shard).toMap := by
    rw [hnext, ← removeExpired_eq]
    exact Database.removeExpired_purge c shard
  refine ⟨_, _, hrun, rfl, purge_shards hr fun i => hpurge (db.shards i), fun hex => ?_⟩
  obtain ⟨_, _, hrun', hcount⟩ := onEachShard_counted h hex init collect
  cases hrun.symm.trans hrun'
  rw [hcount]
  simp only [hnext]
  exact stored_retainAlive hr keyCount

theorem foldl_memory (shards : List Database) (acc : ℕ × ℕ) (expired : Database → ℕ) :
    (shards.foldl (fun acc shard => (acc.1 + expired shard,
      acc.2 + (shard.removeExpired c).2.memoryEstimateBytes)) acc).2 =
      acc.2 + (((shards.map fun shard => snapshotOf c (retainAlive c shard)).flatten).map
        DbSnapshotEntry.bytes).sum := by
  induction shards generalizing acc with
  | nil => simp
  | cons shard shards ih =>
    have hshard : (shard.removeExpired c).2.memoryEstimateBytes =
        ((snapshotOf c (retainAlive c shard)).map DbSnapshotEntry.bytes).sum := by
      rw [removeExpired_eq]
      simp [Database.memoryEstimateBytes, snapshotOf, List.map_map, Function.comp_def,
        DbSnapshotEntry.bytes, snapshotEntry]
    rw [List.foldl_cons, ih, List.map_cons, List.flatten_cons, List.map_append, List.sum_append,
      hshard]
    dsimp only
    omega

theorem removeExpired_returns (h : Simulates c hash db m) :
    Ensures (exec c) removeExpired db fun r db' =>
      (db.keyCount = db.stored → r.2 = (liveEntries c m).length) ∧ Simulates c hash db' m := by
  refine ensures_perform_bind rfl ?_
  refine ensures_bind (purgeLoop_returns h.routed (fun _ => rfl) removeExpired_eq _ _) ?_
  rintro acc db' ⟨-, hp, hcount⟩
  rw [liveEntries_congr h.view_eq] at hcount
  exact ⟨_, db', rfl, hcount, hp.simulates h⟩

theorem infoSnapshot_returns (h : Simulates c hash db m) :
    Ensures (exec c) infoSnapshot db fun i db' =>
      (i.memoryEstimateBytes = ((liveEntries c m).map DbSnapshotEntry.bytes).sum ∧
        (db.keyCount = db.stored → i.keyCount = (liveEntries c m).length)) ∧
      Simulates c hash db' m := by
  have hlive := liveEntries_congr h.view_eq
  refine ensures_perform_bind rfl ?_
  refine ensures_bind (purgeLoop_returns h.routed (fun _ => rfl) removeExpired_eq _ _) ?_
  rintro acc db' ⟨hacc, hp, hcount⟩
  rw [hlive] at hcount
  refine ⟨_, db', rfl, ⟨?_, hcount⟩, hp.simulates h⟩
  have hmemory : acc.2 = (((((List.finRange (n + 1)).map db.shards).map fun shard =>
      snapshotOf c (retainAlive c shard)).flatten).map DbSnapshotEntry.bytes).sum := by
    rw [hacc, ← Nat.zero_add (List.sum _)]
    exact foldl_memory _ (0, 0) fun shard => (shard.removeExpired c).1
  rw [← hlive, ← ((collected_perm h.routed).map DbSnapshotEntry.bytes).sum_eq]
  exact hmemory

theorem snapshotEntries_returns (h : Simulates c hash db m) :
    Ensures (exec c) snapshotEntries db fun s db' =>
      (s.entries = liveEntries c m ∧
        (db.keyCount = db.stored → s.keyCount = (liveEntries c m).length)) ∧
      Simulates c hash db' m := by
  have hlive := liveEntries_congr h.view_eq
  refine ensures_perform_bind rfl (ensures_perform_bind rfl ?_)
  refine ensures_bind (purgeLoop_returns h.routed (fun _ => rfl) (fun _ => rfl) _ _) ?_
  rintro acc db' ⟨hacc, hp, hcount⟩
  rw [hlive] at hcount
  refine ⟨_, db', rfl, ⟨?_, hcount⟩, hp.simulates h⟩
  have hcollected : acc.1 = (((List.finRange (n + 1)).map db.shards).map fun shard =>
      snapshotOf c (retainAlive c shard)).flatten := by
    rw [hacc]
    exact collected_eq ((List.finRange (n + 1)).map db.shards) ([], 0)
      fun shard => shard.len - (retainAlive c shard).len
  change acc.1.insertionSort _ = _
  rw [hcollected, ← hlive]
  exact (snapshotOf_collected h.routed).eq_liveEntries

/-- Run alone, a call that walks over the shards does what its one atomic operation does. -/
theorem walk_spec (h : Simulates c hash db m) (call : DbCall) {atom : Atom}
    (hatom : call.atoms = [atom]) (hwhole : atom.IsWhole) :
    Ensures (exec c) (call.task hash) db fun r db' =>
      call.ReturnsIf (db.keyCount = db.stored) [(atom.spec c m).1] r ∧
        Simulates c hash db' (atom.spec c m).2 := by
  rcases call with o | purger
  · have hop (hspec : (o.spec c m).2 = (atom.spec c m).2)
        (hreply : ∀ r, r = (o.spec c m).1 → (DbCall.op o).Returns [(atom.spec c m).1] (.reply r))
        (hfits : o.Fits c m) :
        Ensures (exec c) ((DbCall.op o).task hash) db fun r db' =>
          (DbCall.op o).ReturnsIf (db.keyCount = db.stored) [(atom.spec c m).1] r ∧
            Simulates c hash db' (atom.spec c m).2 := by
      refine ensures_bind (simulates_op h o hfits) ?_
      rintro reply db' ⟨hr, hs⟩
      exact ensures_pure ⟨DbCall.returnsIf_op.mpr (hreply reply hr), hspec ▸ hs⟩
    cases o with
    | keys =>
      cases hatom
      exact hop rfl (fun r hr => hr) (by rintro _ ⟨⟩)
    | flushdb =>
      cases hatom
      exact hop rfl (fun r hr => hr) (by rintro _ ⟨⟩)
    | del keys =>
      rcases keys with _ | ⟨key, keys⟩
      · simp [DbCall.atoms, DbOp.sections] at hatom
      · simp only [DbCall.atoms, DbOp.sections, List.map_cons, List.cons.injEq] at hatom
        rw [← hatom.1] at hwhole
        exact hwhole.elim
    | set | setAtMs | get | exists' | expire | expireAtMs | ttl =>
      cases hatom
      exact hwhole.elim
  · -- the key count of the map, which the call reports if the counter is right
    have hcounted {r : CallReply} (hr : (DbCall.purge purger).Returns [(atom.spec c m).1]
        (r.withKeyCount (liveEntries c m).length))
        (hcount : db.keyCount = db.stored → r.withKeyCount (liveEntries c m).length = r) :
        (DbCall.purge purger).ReturnsIf (db.keyCount = db.stored) [(atom.spec c m).1] r :=
      ⟨_, hr, hcount⟩
    cases purger with
    | removeExpired =>
      cases hatom
      refine ensures_bind (removeExpired_returns h) ?_
      rintro r db' ⟨hcount, hs⟩
      exact ensures_pure ⟨hcounted rfl fun he => by rw [CallReply.withKeyCount, hcount he], hs⟩
    | infoSnapshot =>
      cases hatom
      refine ensures_bind (infoSnapshot_returns h) ?_
      rintro i db' ⟨⟨hmemory, hcount⟩, hs⟩
      exact ensures_pure ⟨hcounted ⟨hmemory, rfl⟩ fun he => by rw [CallReply.withKeyCount, ← hcount he],
        hs⟩
    | snapshotEntries =>
      cases hatom
      refine ensures_bind (snapshotEntries_returns h) ?_
      rintro s db' ⟨⟨hentries, hcount⟩, hs⟩
      exact ensures_pure ⟨hcounted ⟨hentries, rfl⟩ fun he => by rw [CallReply.withKeyCount, ← hcount he],
        hs⟩

end Walks

end RustKV

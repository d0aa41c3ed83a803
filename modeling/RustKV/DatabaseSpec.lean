import RustKV.Database

/-! What each operation of a shard computes, in terms of the entries that are alive:
its result depends on them alone, and what it does beyond its effect on them is to
drop dead entries. -/
namespace RustKV
open Decimal TimedMap

theorem Entry.isExpired_eq (c : Clock) (entry : Entry) :
    Entry.isExpired c entry = !alive c.instant entry := by
  rcases entry with ⟨v, _ | t⟩
  · rfl
  · by_cases h : t ≤ c.instant <;> simp [Entry.isExpired, alive, h, not_lt.mpr, not_le.mp]

/-- The whole seconds left, rounded up. -/
def secsLeft (c : Clock) (t : Instant) : ℕ := ((t - c.instant).toNat + (10^9 - 1)) / 10^9

namespace Database

/-- The contents of a shard. -/
def toMap (db : Database) : TimedMap String Bytes Instant := fun key => db.lookup key

@[simp] theorem toMap_apply (db : Database) (key : String) : db.toMap key = db.lookup key := rfl

@[simp] theorem toMap_insert (db : Database) (key : String) (entry : Entry) :
    toMap (db.insert key entry) = put key entry db.toMap := by
  funext k
  by_cases h : k = key
  · subst h
    simp [toMap]
  · simp [toMap, AList.lookup_insert_ne h, h]

@[simp] theorem toMap_erase (db : Database) (key : String) :
    toMap (db.erase key) = erase key db.toMap := by
  funext k
  by_cases h : k = key
  · subst h
    simp [toMap]
  · simp [toMap, AList.lookup_erase_ne h, h]

@[simp] theorem toMap_empty : toMap (∅ : Database) = clear := rfl

theorem lookup_eq_some_iff (db : Database) (key : String) (entry : Entry) :
    db.lookup key = some entry ↔ ⟨key, entry⟩ ∈ db.entries := AList.mem_lookup_iff

theorem lookup_retain (keep : String → Entry → Bool) (db : Database) (key : String) :
    (db.retain keep).lookup key = (db.lookup key).filter (keep key) := by
  apply Option.ext
  intro entry
  rw [Option.filter_eq_some_iff, lookup_eq_some_iff, lookup_eq_some_iff]
  simp [retain]

section Purging
variable (c : Clock) (db : Database) (key : String)

/-- `remove_if_expired` leaves under the key exactly what is alive. -/
theorem lookup_removeIfExpired :
    (removeIfExpired c db key).2.lookup key = view c.instant db.toMap key := by
  unfold removeIfExpired
  rw [view_apply, toMap_apply]
  cases h : db.lookup key with
  | none => simp [h]
  | some entry =>
    rw [Option.any_some, Entry.isExpired_eq]
    cases hd : alive c.instant entry <;> simp [h, hd, Option.filter_some]

theorem removeIfExpired_effect : Effect c.instant key db.toMap
    (removeIfExpired c db key).2.toMap (view c.instant db.toMap key) := by
  refine ⟨lookup_removeIfExpired c db key, fun k hk => Or.inl ?_⟩
  unfold removeIfExpired
  split_ifs
  · exact AList.lookup_erase_ne hk
  · rfl

theorem insert_effect (entry : Entry) :
    Effect c.instant key db.toMap (toMap (db.insert key entry)) (some entry) := by
  rw [toMap_insert]
  exact effect_update ..

theorem erase_effect : Effect c.instant key db.toMap (toMap (db.erase key)) none := by
  rw [toMap_erase]
  exact effect_update ..

/-- `remove_if_expired` reports only keys that are dead, and keeps the shard as it is
when the key is alive. -/
theorem removeIfExpired_cases :
    removeIfExpired c db key = (true, db.erase key) ∧ view c.instant db.toMap key = none ∨
      removeIfExpired c db key = (false, db) ∧ view c.instant db.toMap key = db.lookup key := by
  have hl := lookup_removeIfExpired c db key
  unfold removeIfExpired at hl ⊢
  split_ifs at hl ⊢
  · exact Or.inl ⟨rfl, by rw [← hl, AList.lookup_erase]⟩
  · exact Or.inr ⟨rfl, hl.symm⟩

theorem lookup_removeExpired (k : String) :
    (removeExpired c db).2.lookup k = view c.instant db.toMap k := by
  rw [removeExpired, lookup_retain, view_apply, toMap_apply]
  congr 1
  funext entry
  rw [Entry.isExpired_eq, Bool.not_not]

theorem toMap_removeExpired : (removeExpired c db).2.toMap = view c.instant db.toMap :=
  funext (lookup_removeExpired c db)

theorem removeExpired_purge : Purge c.instant db.toMap (removeExpired c db).2.toMap := by
  rw [toMap_removeExpired]
  exact purge_view _ _

end Purging

section Reads
variable (c : Clock) (db : Database) (key : String)

theorem get_spec : (get c db key).1 = .ok ((view c.instant db.toMap key).map Timed.value) ∧
    Effect c.instant key db.toMap (get c db key).2.toMap (view c.instant db.toMap key) := by
  have hp := removeIfExpired_effect c db key
  unfold get
  rcases removeIfExpired_cases c db key with ⟨hr, hv⟩ | ⟨hr, hv⟩ <;> rw [hv] at hp ⊢ <;> rw [hr] at hp ⊢
  · exact ⟨rfl, hp⟩
  · exact ⟨rfl, hp⟩

theorem exists'_spec : (exists' c db key).1 = .ok (view c.instant db.toMap key).isSome ∧
    Effect c.instant key db.toMap (exists' c db key).2.toMap (view c.instant db.toMap key) := by
  have hp := removeIfExpired_effect c db key
  unfold exists'
  rcases removeIfExpired_cases c db key with ⟨hr, hv⟩ | ⟨hr, hv⟩ <;> rw [hv] at hp ⊢ <;> rw [hr] at hp ⊢
  · exact ⟨rfl, hp⟩
  · exact ⟨rfl, hp⟩

/-- What TTL asks for, of what is alive under the key: the seconds left, rounded up. -/
def ttlOf (c : Clock) : Option Entry → ℤ
  | none => -2
  | some entry =>
    match entry.expireAt with
    | none => -1
    | some expireAt => secsLeft c expireAt

/-- The cast `ttl as i64` keeps the lower 64 bits of the seconds left. -/
theorem ttlSecs_eq (c : Clock) (t : Instant) :
    (ttlSecs (t - c.instant).toNat).toInt64 = Int64.ofInt (secsLeft c t) := by
  rw [Int64.ofInt_eq_ofNat, secsLeft, ttlSecs, ← UInt64.toInt64_ofNat']
  generalize (t - c.instant).toNat = remaining
  congr 1
  by_cases h : 0 < remaining % 10^9
  · have hceil : (remaining + (10^9 - 1)) / 10^9 = remaining / 10^9 + 1 := by omega
    rw [if_pos h, hceil, UInt64.ofNat_add]
    rfl
  · have hceil : (remaining + (10^9 - 1)) / 10^9 = remaining / 10^9 := by omega
    rw [if_neg h, hceil, UInt64.add_zero]

/-- `ttl` returns the lower 64 bits of what is asked for. -/
theorem ttl_spec : (ttl c db key).1 = .ok (Int64.ofInt (ttlOf c (view c.instant db.toMap key))) ∧
    Effect c.instant key db.toMap (ttl c db key).2.toMap (view c.instant db.toMap key) := by
  have hp := removeIfExpired_effect c db key
  unfold ttl
  rcases removeIfExpired_cases c db key with ⟨hr, hv⟩ | ⟨hr, hv⟩ <;> rw [hv] at hp ⊢ <;> rw [hr] at hp ⊢
  · exact ⟨rfl, hp⟩
  · cases hl : db.lookup key with
    | none => exact ⟨by simp only [hl]; rfl, by simpa only [hl] using hp⟩
    | some entry =>
      rw [hl] at hv
      have halive := (alive_iff _ _).mp (view_eq_some_iff.mp hv).2
      cases he : entry.expireAt with
      | none => exact ⟨by simp only [hl, ttlOf, he]; rfl, by simpa only [hl, he] using hp⟩
      | some t =>
        have hlt : ¬ c.instant ≥ t := not_le.mpr (halive t he)
        simpa only [hl, ttlOf, he, hlt, if_false, ttlSecs_eq, true_and] using hp

/-- The keys that `keys` collects before sorting. -/
theorem liveEntries_eq (entries : List (Sigma fun _ : String => Entry)) :
    (entries.filterMap fun p => if Entry.isExpired c p.2 then none else some p.1) =
      (entries.filter fun p => alive c.instant p.2).map Sigma.fst := by
  induction entries with
  | nil => rfl
  | cons p entries ih =>
    rw [List.filterMap_cons, List.filter_cons, Entry.isExpired_eq]
    cases alive c.instant p.2 <;> simpa using ih

theorem keys_spec : ∃ ks, keys c db = .ok ks ∧ ks.Nodup ∧
    ∀ k, k ∈ ks ↔ (view c.instant db.toMap k).isSome := by
  refine ⟨_, rfl, ?_, ?_⟩
  · refine ((List.perm_insertionSort _ _).nodup_iff).mpr ?_
    rw [liveEntries_eq]
    exact (List.filter_sublist.map Sigma.fst).nodup db.keys_nodup
  · intro k
    rw [List.mem_insertionSort, liveEntries_eq, Option.isSome_iff_exists]
    simp only [List.mem_map, List.mem_filter, view_eq_some_iff, toMap_apply, lookup_eq_some_iff]
    constructor
    · rintro ⟨⟨_, entry⟩, h, rfl⟩
      exact ⟨entry, h⟩
    · rintro ⟨entry, h⟩
      exact ⟨⟨k, entry⟩, h, rfl⟩

end Reads

section Writes
variable (c : Clock) (db : Database) (key : String)

theorem del_spec :
    (del c db [key]).1 = .ok (if (view c.instant db.toMap key).isSome then 1 else 0) ∧
      Effect c.instant key db.toMap (del c db [key]).2.toMap none := by
  have hp := removeIfExpired_effect c db key
  unfold del delFrom
  rcases removeIfExpired_cases c db key with ⟨hr, hv⟩ | ⟨hr, hv⟩ <;> rw [hv] at hp ⊢ <;>
    rw [hr] at hp ⊢
  · exact ⟨rfl, hp⟩
  · cases hl : db.lookup key with
    | none =>
      rw [hl] at hp
      simpa [hl, delFrom] using hp
    | some entry => simpa [hl, delFrom] using erase_effect c db key

theorem set_spec (value : Bytes) (expire : Option Duration) :
    set c db key value expire =
      match expire with
      | none => some (.ok (), db.insert key ⟨value, none⟩)
      | some duration => (Instant.add c.instant duration).map fun t =>
          (.ok (), db.insert key ⟨value, some t⟩) := by
  cases expire with
  | none => rfl
  | some duration =>
    simp only [set, Entry.new]
    cases Instant.add c.instant duration <;> rfl

/-- EXPIRE on a key that is not alive. -/
theorem expire_dead (secs : UInt64) (h : view c.instant db.toMap key = none) :
    ∃ db', expire c db key secs = some (.ok false, db') ∧
      Effect c.instant key db.toMap db'.toMap none := by
  have hp := removeIfExpired_effect c db key
  rw [h] at hp
  unfold expire
  rcases removeIfExpired_cases c db key with ⟨hr, hv⟩ | ⟨hr, hv⟩ <;> rw [hr] at hp ⊢
  · exact ⟨_, rfl, hp⟩
  · rw [h] at hv
    exact ⟨db, by simp only [← hv], hp⟩

/-- EXPIRE on a key that is alive. -/
theorem expire_alive (secs : UInt64) {entry : Entry} (h : view c.instant db.toMap key = some entry) :
    expire c db key secs = (Instant.add c.instant (Duration.fromSecs secs)).map fun t =>
      (.ok true, db.insert key { entry with expireAt := some t }) := by
  unfold expire
  rcases removeIfExpired_cases c db key with ⟨hr, hv⟩ | ⟨hr, hv⟩
  · rw [h] at hv
    cases hv
  · rw [h] at hv
    simp only [hr, ← hv]

/-- EXPIREAT on a key that is not alive. -/
theorem expireAtMs_dead (ts : UInt64) (h : view c.instant db.toMap key = none) :
    ∃ db', expireAtMs c db key ts = some (.ok false, db') ∧
      Effect c.instant key db.toMap db'.toMap none := by
  have hp := removeIfExpired_effect c db key
  rw [h] at hp
  unfold expireAtMs
  rcases removeIfExpired_cases c db key with ⟨hr, hv⟩ | ⟨hr, hv⟩ <;> rw [hr] at hp ⊢
  · exact ⟨_, rfl, hp⟩
  · rw [h] at hv
    cases durationUntilUnixMs c ts with
    | none => exact ⟨db.erase key, by simp [← hv], erase_effect c db key⟩
    | some d => exact ⟨db, by simp only [← hv], hp⟩

/-- EXPIREAT on a key that is alive. -/
theorem expireAtMs_alive (ts : UInt64) {entry : Entry}
    (h : view c.instant db.toMap key = some entry) :
    expireAtMs c db key ts =
      match durationUntilUnixMs c ts with
      | none => some (.ok true, db.erase key)
      | some duration => (Instant.add c.instant duration).map fun t =>
          (.ok true, db.insert key { entry with expireAt := some t }) := by
  unfold expireAtMs
  rcases removeIfExpired_cases c db key with ⟨hr, hv⟩ | ⟨hr, hv⟩
  · rw [h] at hv
    cases hv
  · rw [h] at hv
    simp only [hr, ← hv]
    rfl

end Writes

end Database

end RustKV

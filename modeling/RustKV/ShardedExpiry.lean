import RustKV.ShardedCounts
import RustKV.ShardedStages

/-! Which entries a section on a shard removes because their deadline has passed, and what the
operations report of them. -/
namespace RustKV
open Decimal Prog

section Counting
variable {db : Database}

/-- The number of entries that satisfy a predicate. -/
def Database.countEntries (P : String → Entry → Bool) (db : Database) : ℕ :=
  (db.entries.filter fun p => P p.1 p.2).length

/-- A predicate that concerns one key counts its entry. -/
theorem Database.countEntries_single {P : String → Entry → Bool} (key : String)
    (h : ∀ k entry, db.lookup k = some entry → k ≠ key → P k entry = false) :
    db.countEntries P = if (db.lookup key).any (P key) then 1 else 0 := by
  have hnodup : (db.entries.filter fun p => P p.1 p.2).Nodup := db.nodupKeys.nodup.filter _
  have hkey (p : Sigma fun _ : String => Entry) (hp : p ∈ db.entries.filter fun p => P p.1 p.2) :
      p.1 = key ∧ db.lookup key = some p.2 ∧ P key p.2 = true := by
    obtain ⟨hmem, hP⟩ := List.mem_filter.mp hp
    have hlookup := (Database.lookup_eq_some_iff db p.1 p.2).mpr hmem
    by_cases hk : p.1 = key
    · exact ⟨hk, hk ▸ hlookup, hk ▸ hP⟩
    · rw [h p.1 p.2 hlookup hk] at hP
      cases hP
  unfold countEntries
  split_ifs with hany
  · obtain ⟨entry, hentry, hP⟩ := (Option.any_eq_true ..).mp hany
    have hmem : (⟨key, entry⟩ : Sigma fun _ : String => Entry) ∈
        db.entries.filter fun p => P p.1 p.2 :=
      List.mem_filter.mpr ⟨(Database.lookup_eq_some_iff db key entry).mp hentry, hP⟩
    refine List.length_eq_one_iff.mpr ⟨⟨key, entry⟩, ?_⟩
    refine List.perm_singleton.mp ((List.perm_ext_iff_of_nodup hnodup (by simp)).mpr ?_)
    rintro ⟨k, e⟩
    rw [List.mem_singleton]
    constructor
    · intro hp
      obtain ⟨rfl, hlookup, -⟩ := hkey _ hp
      rw [hentry] at hlookup
      cases hlookup
      rfl
    · rintro ⟨⟩
      exact hmem
  · refine List.length_eq_zero_iff.mpr (List.eq_nil_iff_forall_not_mem.mpr fun p hp => hany ?_)
    obtain ⟨-, hlookup, hP⟩ := hkey p hp
    rw [hlookup]
    exact hP

theorem Database.len_eq_keys (db : Database) : db.len = (AList.keys db).length := by
  rw [Database.len, AList.keys, List.keys, List.length_map]

theorem Database.len_erase (db : Database) (key : String) :
    Database.len (db.erase key) = db.len - if (db.lookup key).isSome then 1 else 0 := by
  have hiff : (db.lookup key).isSome ↔ key ∈ AList.keys db :=
    AList.lookup_isSome.trans AList.mem_keys
  rw [len_eq_keys, len_eq_keys, AList.keys_erase, List.length_erase]
  by_cases h : key ∈ AList.keys db
  · rw [if_pos h, if_pos (hiff.mpr h)]
  · rw [if_neg h, if_neg fun hs => h (hiff.mp hs), Nat.sub_zero]

theorem Database.len_insert {key : String} (entry : Entry) (h : (db.lookup key).isSome) :
    Database.len (db.insert key entry) = db.len := by
  have hmem : key ∈ AList.keys db := AList.mem_keys.mp (AList.lookup_isSome.mp h)
  have hpos := List.length_pos_of_mem hmem
  rw [len_eq_keys, len_eq_keys, AList.keys_insert, List.length_cons, List.length_erase,
    if_pos hmem]
  omega

/-- A purge counts what it takes. -/
theorem Database.len_retain (db : Database) (keep : String → Entry → Bool) :
    db.len - (db.retain keep).len = db.countEntries fun k entry => !keep k entry := by
  have hsplit := List.length_eq_length_filter_add (l := db.entries) fun p => keep p.1 p.2
  unfold len retain countEntries
  dsimp only
  omega

end Counting

section Sections

def KeyOp.overwrites : KeyOp → Bool
  | .set .. | .setAtMs .. => true
  | _ => false

/-- The deadline of an entry has passed when the section runs. EXPIREAT may give an entry a
deadline that has passed; what FLUSHDB wipes is not due. -/
def ShardCall.due (c : Clock) (key : String) (entry : Entry) : ShardCall → Bool
  | .snapshotEntries now => entry.isExpired now
  | .key key' (.expireAtMs timestampMs) =>
    entry.isExpired c || (key = key' && (durationUntilUnixMs c timestampMs).isNone)
  | .flushdb => false
  | _ => entry.isExpired c

/-- After the section the entry that was there is not there any more. -/
def ShardCall.gone (db' : Database) (key : String) : ShardCall → Bool
  | .key key' op => (db'.lookup key).isNone || (key = key' && op.overwrites)
  | _ => (db'.lookup key).isNone

/-- The number of entries that a section removes because their deadline has passed. -/
def ShardCall.removedExpired (c : Clock) (db : Database) (call : ShardCall) : ℕ :=
  db.countEntries fun key entry => call.due c key entry && call.gone (call.run c db).2 key

/-- What the operations take for that number. -/
def ShardCall.reported : (call : ShardCall) → Locked call.Result → ℕ
  | .key _ .del, locked =>
    let result : KvResult ℕ := locked.result
    match result with
    | .ok count => locked.before - locked.after - count
    | .error _ => 0
  | _, locked => locked.expired

variable {c : Clock} {db db' : Database} {key : String}

/-- A section on one key that touches no other entry removes at most that of the key. -/
theorem ShardCall.removedExpired_key {op : KeyOp} (ho : op.overwrites = false)
    (hrun : (op.run c db key).2 = db') (hother : ∀ k, k ≠ key → db'.lookup k = db.lookup k) :
    (ShardCall.key key op).removedExpired c db =
      if (db.lookup key).any (fun entry => (ShardCall.key key op).due c key entry) &&
        (db'.lookup key).isNone then 1 else 0 := by
  have hgone (k : String) : (ShardCall.key key op).gone db' k = (db'.lookup k).isNone := by
    simp [gone, ho]
  rw [removedExpired, Database.countEntries_single key]
  · change (if (db.lookup key).any (fun entry => _ && (ShardCall.key key op).gone
      (op.run c db key).2 key) then 1 else 0) = _
    rw [hrun, hgone]
    cases (db.lookup key) <;> simp
  · intro k entry hk hne
    change (_ && (ShardCall.key key op).gone (op.run c db key).2 k) = false
    rw [hrun, hgone, hother k hne, hk]
    simp

/-- What an operation on one key leaves that does not write: the entry is erased, and then it was
due, or it stays, or there was none. -/
inductive Touches (due : Entry → Bool) (key : String) (db : Database) : Database → Prop
  | erased : (db.lookup key).any due → Touches due key db (db.erase key)
  | same : Touches due key db db
  | updated (entry : Entry) : (db.lookup key).isSome → Touches due key db (db.insert key entry)
  | none : (db.lookup key).isNone → Touches due key db (db.erase key)

theorem Touches.other {due : Entry → Bool} (h : Touches due key db db') (k : String) (hk : k ≠ key) :
    db'.lookup k = db.lookup k := by
  cases h with
  | erased | none => exact AList.lookup_erase_ne hk
  | same => rfl
  | updated => exact AList.lookup_insert_ne hk

/-- Then the difference of the sizes is the number of entries that were due. -/
theorem Touches.len {due : Entry → Bool} (h : Touches due key db db') :
    db.len - db'.len = if (db.lookup key).any due && (db'.lookup key).isNone then 1 else 0 := by
  cases h with
  | erased hdue =>
    obtain ⟨entry, hentry, -⟩ := (Option.any_eq_true ..).mp hdue
    have hpos : 0 < db.len :=
      List.length_pos_of_mem ((Database.lookup_eq_some_iff db key entry).mp hentry)
    have hlen := Database.len_erase db key
    rw [hentry, Option.isSome_some, if_pos rfl] at hlen
    rw [hdue, AList.lookup_erase, hlen, Option.isNone_none, Bool.and_self, if_pos rfl]
    omega
  | same =>
    cases hl : db.lookup key <;> simp
  | updated entry hsome =>
    rw [Database.len_insert entry hsome, AList.lookup_insert]
    simp
  | none hnone =>
    have hlen := Database.len_erase db key
    rw [Option.isNone_iff_eq_none] at hnone
    rw [hnone, Option.isSome_none] at hlen
    rw [hlen, hnone]
    simp

theorem touches_removeIfExpired (db : Database) (key : String) {due : Entry → Bool}
    (hdue : ∀ entry, Entry.isExpired c entry → due entry) :
    Database.removeIfExpired c db key = (true, db.erase key) ∧
        Touches due key db (db.erase key) ∨
      Database.removeIfExpired c db key = (false, db) := by
  unfold Database.removeIfExpired
  split_ifs with hdead
  · refine .inl ⟨rfl, .erased ?_⟩
    obtain ⟨entry, hentry, hexpired⟩ := (Option.any_eq_true ..).mp hdead
    rw [hentry]
    exact hdue entry hexpired
  · exact .inr rfl

/-- The operations on one key that count what got lost. -/
theorem KeyOp.touches {op : KeyOp} (ho : op.overwrites = false) (hdel : op ≠ .del) :
    Touches ((ShardCall.key key op).due c key) key db (op.run c db key).2 := by
  have haround {α : Type} {o : Option (KvResult α × Database)}
      (h : ∀ result db', o = some (result, db') →
        Touches ((ShardCall.key key op).due c key) key db db') :
      Touches ((ShardCall.key key op).due c key) key db (around db o).2 := by
    rcases o with _ | ⟨result, db'⟩
    · exact .same
    · exact h result db' rfl
  have hexpired : ∀ entry, Entry.isExpired c entry → (ShardCall.key key op).due c key entry := by
    intro entry h
    cases op <;> simp [ShardCall.due, h]
  have hremove := touches_removeIfExpired db key hexpired
  cases op with
  | set | setAtMs => cases ho
  | del => exact absurd rfl hdel
  | get =>
    refine haround fun result db' h => ?_
    unfold Database.get at h
    rcases hremove with ⟨hr, ht⟩ | hr <;> rw [hr] at h <;> cases h
    · exact ht
    · exact .same
  | exists' =>
    refine haround fun result db' h => ?_
    unfold Database.exists' at h
    rcases hremove with ⟨hr, ht⟩ | hr <;> rw [hr] at h <;> cases h
    · exact ht
    · exact .same
  | ttl =>
    refine haround fun result db' h => ?_
    have hdb : (Database.ttl c db key).2 = db' := congrArg Prod.snd (Option.some.inj h)
    rw [← hdb]
    unfold Database.ttl
    rcases hremove with ⟨hr, ht⟩ | hr <;> rw [hr]
    · exact ht
    · cases hl : db.lookup key with
      | none =>
        simp only [hl]
        exact .same
      | some entry =>
        cases he : entry.expireAt with
        | none =>
          simp only [hl, he]
          exact .same
        | some expireAt =>
          simp only [hl, he]
          split_ifs with hpast
          · refine .erased ?_
            rw [hl]
            exact hexpired entry (by simpa [Entry.isExpired, he] using hpast)
          · exact .same
  | expire seconds =>
    refine haround fun result db' h => ?_
    unfold Database.expire at h
    rcases hremove with ⟨hr, ht⟩ | hr <;> rw [hr] at h
    · cases h
      exact ht
    · cases hl : db.lookup key with
      | none =>
        simp only [hl] at h
        cases h
        exact .same
      | some entry =>
        simp only [hl, Option.map_eq_some_iff] at h
        obtain ⟨t, -, h⟩ := h
        cases h
        exact .updated _ (by rw [hl]; rfl)
  | expireAtMs timestampMs =>
    refine haround fun result db' h => ?_
    unfold Database.expireAtMs at h
    rcases hremove with ⟨hr, ht⟩ | hr <;> rw [hr] at h
    · cases h
      exact ht
    · cases hd : durationUntilUnixMs c timestampMs with
      | none =>
        -- the deadline that is set has passed
        simp only [hd] at h
        cases h
        cases hl : db.lookup key with
        | none => exact .none (by rw [hl]; rfl)
        | some entry =>
          refine .erased ?_
          rw [hl]
          simp [ShardCall.due, hd]
      | some duration =>
        simp only [hd] at h
        cases hl : db.lookup key with
        | none =>
          simp only [hl] at h
          cases h
          exact .same
        | some entry =>
          simp only [hl, Option.map_eq_some_iff] at h
          obtain ⟨t, -, h⟩ := h
          cases h
          exact .updated _ (by rw [hl]; rfl)

/-- A section that removes what is dead. -/
theorem ShardCall.removedExpired_purge {call : ShardCall} {now : Clock}
    (hdue : ∀ k entry, call.due c k entry = Entry.isExpired now entry)
    (hgone : ∀ k entry, db.lookup k = some entry → Entry.isExpired now entry →
      call.gone (call.run c db).2 k) :
    call.removedExpired c db = db.len - (db.removeExpired now).2.len := by
  have hkeep := Database.len_retain db fun _ entry => !Entry.isExpired now entry
  rw [Database.removeExpired, hkeep]
  unfold removedExpired Database.countEntries
  refine congrArg List.length (List.filter_congr ?_)
  rintro ⟨k, entry⟩ hmem
  have hlookup := (Database.lookup_eq_some_iff db k entry).mpr hmem
  dsimp only
  rw [hdue]
  cases hdead : Entry.isExpired now entry
  · rfl
  · simp [hgone k entry hlookup hdead]

theorem Database.lookup_removeExpired_of_dead {now : Clock} {k : String} {entry : Entry}
    (h : db.lookup k = some entry) (hdead : Entry.isExpired now entry) :
    (db.removeExpired now).2.lookup k = none := by
  rw [Database.removeExpired, Database.lookup_retain, h, Option.filter_some, hdead]
  rfl

/-- What SET leaves of the dead entries. -/
theorem ShardCall.removedExpired_set {op : KeyOp} (ho : op.overwrites = true)
    {α : Type} {body : Database → Option (KvResult α × Database)}
    (hrun : (op.run c db key).2 = (afterPurge c db body).2)
    (hbody : ∀ result db', body (db.removeExpired c).2 = some (result, db') →
      ∀ k, k ≠ key → db'.lookup k = (db.removeExpired c).2.lookup k) :
    (ShardCall.key key op).removedExpired c db = (db.removeExpired c).1 := by
  have hdue (k : String) (entry : Entry) :
      (ShardCall.key key op).due c k entry = Entry.isExpired c entry := by
    cases op <;> first | rfl | cases ho
  refine removedExpired_purge hdue fun k entry hk hdead => ?_
  have hnone := Database.lookup_removeExpired_of_dead hk hdead
  change ((((op.run c db key).2.lookup k).isNone || (decide (k = key) && op.overwrites)) = true)
  by_cases hkey : k = key
  · simp [hkey, ho]
  · rw [hrun]
    unfold afterPurge
    rcases hb : body (db.removeExpired c).2 with _ | ⟨result, db'⟩
    · simp [hb, hnone]
    · simp [hb, hbody result db' hb k hkey, hnone]

theorem ShardCall.reported_del {locked : Locked (KvResult ℕ)} {count : ℕ}
    (h : locked.result = .ok count) :
    (ShardCall.key key .del).reported locked = locked.before - locked.after - count := by
  rcases locked with ⟨result, before, after, expired⟩
  cases h
  rfl

/-- A deletion removes the entry, counts it if it was alive, and loses it otherwise. -/
theorem Database.del_cases (c : Clock) (db : Database) (key : String) :
    (∀ k, k ≠ key → (Database.del c db [key]).2.lookup k = db.lookup k) ∧
      ∃ count, (Database.del c db [key]).1 = .ok count ∧
        db.len - (Database.del c db [key]).2.len - count =
          if (db.lookup key).any (Entry.isExpired c) &&
            ((Database.del c db [key]).2.lookup key).isNone then 1 else 0 := by
  have hlen := Database.len_erase db key
  unfold Database.del Database.delFrom Database.removeIfExpired
  cases hl : db.lookup key with
  | none =>
    simp only [hl, Option.any_none, Option.isSome_none, Bool.false_eq_true, if_false, delFrom]
    exact ⟨fun _ _ => trivial, 0, rfl, by simp⟩
  | some entry =>
    have hpos : 0 < db.len :=
      List.length_pos_of_mem ((Database.lookup_eq_some_iff db key entry).mp hl)
    rw [hl, Option.isSome_some, if_pos rfl] at hlen
    cases hdead : Entry.isExpired c entry
    · simp only [hl, hdead, Option.any_some, Option.isSome_some, Bool.false_eq_true, if_false, if_true,
        delFrom]
      refine ⟨fun k hk => AList.lookup_erase_ne hk, 1, rfl, ?_⟩
      simp only [Bool.false_and, Bool.false_eq_true, if_false]
      omega
    · simp only [hdead, Option.any_some, if_true, delFrom]
      refine ⟨fun k hk => AList.lookup_erase_ne hk, 0, rfl, ?_⟩
      rw [AList.lookup_erase, hlen]
      simp only [Option.isNone_none, Bool.and_self, if_true]
      omega

/-- Whatever a section on one key does, it reports as expired what it removed for that reason. -/
theorem KeyOp.run_reported {op : KeyOp} {locked : Locked op.Result}
    (h : (op.run c db key).1 = some locked) :
    (ShardCall.key key op).reported locked = (ShardCall.key key op).removedExpired c db := by
  have haround {α : Type} {o : Option (KvResult α × Database)} {locked : Locked (KvResult α)}
      (h : (around db o).1 = some locked) :
      locked.expired = db.len - (around db o).2.len ∧ locked.before = db.len ∧
        locked.after = (around db o).2.len := by
    rcases o with _ | ⟨result, db'⟩
    · cases h
    · cases h
      exact ⟨rfl, rfl, rfl⟩
  have htouches (ho : op.overwrites = false) (hdel : op ≠ .del) :
      (ShardCall.key key op).removedExpired c db = db.len - (op.run c db key).2.len := by
    have ht : Touches ((ShardCall.key key op).due c key) key db (op.run c db key).2 :=
      KeyOp.touches ho hdel
    rw [ShardCall.removedExpired_key ho rfl ht.other, ht.len]
  have hafter {α : Type} {body : Database → Option (KvResult α × Database)}
      {locked : Locked (KvResult α)} (h : (afterPurge c db body).1 = some locked) :
      locked.expired = (db.removeExpired c).1 := by
    unfold afterPurge at h
    rcases hb : body (db.removeExpired c).2 with _ | ⟨result, db'⟩ <;> simp [hb] at h
    rw [← h]
  cases op with
  | get => exact (haround h).1.trans (htouches rfl nofun).symm
  | exists' => exact (haround h).1.trans (htouches rfl nofun).symm
  | ttl => exact (haround h).1.trans (htouches rfl nofun).symm
  | expire => exact (haround h).1.trans (htouches rfl nofun).symm
  | expireAtMs => exact (haround h).1.trans (htouches rfl nofun).symm
  | set value duration =>
    refine (hafter h).trans (ShardCall.removedExpired_set rfl rfl ?_).symm
    intro result db' hb k hk
    obtain ⟨entry, -, hinsert⟩ := Option.map_eq_some_iff.mp hb
    cases hinsert
    exact AList.lookup_insert_ne hk
  | setAtMs value timestampMs =>
    refine (hafter h).trans (ShardCall.removedExpired_set rfl rfl ?_).symm
    intro result db' hb k hk
    unfold Database.setAtMs at hb
    cases hd : durationUntilUnixMs c timestampMs with
    | none =>
      simp only [hd] at hb
      cases hb
      exact AList.lookup_erase_ne hk
    | some duration =>
      simp only [hd, Option.map_eq_some_iff] at hb
      obtain ⟨t, -, hinsert⟩ := hb
      cases hinsert
      exact AList.lookup_insert_ne hk
  | del =>
    obtain ⟨-, hbefore, hafter⟩ := haround h
    obtain ⟨hother, count, hdel, hcount⟩ := Database.del_cases c db key
    have hresult : locked.result = .ok count := by
      cases h
      exact hdel
    rw [ShardCall.removedExpired_key rfl rfl hother]
    rw [ShardCall.reported_del hresult, hbefore, hafter]
    exact hcount

/-- Whatever a section does, the operations report as expired what it removed for that reason. -/
theorem ShardCall.run_reported {call : ShardCall} {locked : Locked call.Result}
    (h : (call.run c db).1 = some locked) :
    call.reported locked = call.removedExpired c db := by
  have hdead {now : Clock} (k : String) (entry : Entry) (hk : db.lookup k = some entry)
      (hdead : Entry.isExpired now entry) : ((db.removeExpired now).2.lookup k).isNone := by
    rw [Database.lookup_removeExpired_of_dead hk hdead]
    rfl
  cases call with
  | key key op => exact KeyOp.run_reported h
  | keys =>
    cases h
    refine (List.length_eq_zero_iff.mpr (List.filter_eq_nil_iff.mpr ?_)).symm
    rintro ⟨k, entry⟩ hmem
    have hlookup := (Database.lookup_eq_some_iff db k entry).mpr hmem
    simp [gone, run, hlookup]
  | flushdb =>
    cases h
    exact (List.length_eq_zero_iff.mpr (List.filter_eq_nil_iff.mpr fun _ _ => by simp [due])).symm
  | infoSnapshot =>
    cases h
    exact (removedExpired_purge (fun _ _ => rfl) hdead).symm
  | removeExpired =>
    cases h
    exact (removedExpired_purge (fun _ _ => rfl) hdead).symm
  | snapshotEntries now =>
    have hkeep : (fun (_ : String) (entry : Entry) => entry.expireAt.all fun t =>
        decide (now.instant < t)) = fun _ entry => !Entry.isExpired now entry := by
      funext _ entry
      rw [Entry.isExpired_eq, Bool.not_not]
      rfl
    cases h
    have hremoved : (ShardCall.snapshotEntries now).removedExpired c db =
        db.len - (db.removeExpired now).2.len := by
      refine removedExpired_purge (fun _ _ => rfl) fun k entry hk hexpired => ?_
      change ((db.retain _).lookup k).isNone
      rw [hkeep]
      exact hdead k entry hk hexpired
    change db.len - (db.retain _).len = _
    rw [hremoved, hkeep]
    rfl

end Sections

end RustKV

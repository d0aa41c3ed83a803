import RustKV.AofOutlines
import RustKV.ServerAccess

/-! The server while its filesystem operations succeed, its two clocks advance together, and every
deadline that is ever set lies far behind some later time. Then nothing expires, no section panics,
and only few actions change what a log has to agree with. -/
namespace RustKV
open Decimal TimedMap Tasks Prog ServerM

section Sections
variable {c : Clock} {db : Database}

namespace Database

theorem retain_of_all {keep : String → Entry → Bool}
    (h : ∀ key e, db.lookup key = some e → keep key e = true) : db.retain keep = db := by
  apply AList.ext
  refine List.filter_eq_self.mpr fun p hp => h p.1 p.2 ?_
  exact (lookup_eq_some_iff db p.1 p.2).mpr hp

theorem removeExpired_of_allAlive (h : AllAlive c.instant db.toMap) :
    db.removeExpired c = (0, db) := by
  have hretain : db.retain (fun _ entry => !Entry.isExpired c entry) = db := by
    refine retain_of_all fun key e he => ?_
    rw [Entry.isExpired_eq, h key e he]
    rfl
  rw [removeExpired, hretain, Nat.sub_self]

theorem removeIfExpired_of_allAlive (h : AllAlive c.instant db.toMap) (key : String) :
    removeIfExpired c db key = (false, db) := by
  have hnot : (db.lookup key).any (Entry.isExpired c) = false := by
    cases he : db.lookup key with
    | none => rfl
    | some e =>
      rw [Option.any_some, Entry.isExpired_eq, h key e he]
      rfl
  rw [removeIfExpired, hnot]
  rfl

theorem ttl_of_allAlive (h : AllAlive c.instant db.toMap) (key : String) : (ttl c db key).2 = db := by
  rw [ttl, removeIfExpired_of_allAlive h]
  dsimp only
  cases he : db.lookup key with
  | none => rfl
  | some e =>
    dsimp only
    cases hd : e.expireAt with
    | none => rfl
    | some d =>
      have hlt : c.instant < d := (alive_iff _ _).mp (h key e he) d hd
      dsimp only
      rw [if_neg (not_le.mpr hlt)]

end Database

/-- The sections that may change a shard in which nothing expires. The snapshot purges by a look at
the clock of its own. -/
def ShardCall.Writes : ShardCall → Prop
  | .key _ .get | .key _ .exists' | .key _ .ttl | .keys | .infoSnapshot | .removeExpired => False
  | _ => True

/-- Where nothing has expired, a section that does not write leaves its shard. -/
theorem ShardCall.run_eq (h : AllAlive c.instant db.toMap) {call : ShardCall} (hcall : ¬ call.Writes) :
    (call.run c db).2 = db := by
  have hsame := Database.removeExpired_of_allAlive h
  cases call with
  | keys => rfl
  | infoSnapshot | removeExpired =>
    rw [ShardCall.run, hsame]
  | flushdb | snapshotEntries => exact absurd trivial hcall
  | key key op =>
    have hkey := Database.removeIfExpired_of_allAlive h key
    cases op with
    | get =>
      change (Database.get c db key).2 = db
      rw [Database.get, hkey]
    | exists' =>
      change (Database.exists' c db key).2 = db
      rw [Database.exists', hkey]
    | ttl => exact Database.ttl_of_allAlive h key
    | set | setAtMs | del | expire | expireAtMs => exact absurd trivial hcall

end Sections

section Contents
variable {n : ℕ} {hash : String → UInt64} {c T : Clock} {db : ShardedDatabase n}
open ShardedDatabase

/-- All deadlines of the map are distant. -/
def AllDistant (T : Clock) (m : TimedMap String Bytes Instant) : Prop :=
  ∀ key e, m key = some e → ∀ d ∈ e.expireAt, Distant T d

theorem AllDistant.allAlive (hT : c.Advances T) {m : TimedMap String Bytes Instant}
    (h : AllDistant T m) : AllAlive c.instant m := by
  intro key e he
  rw [alive_iff]
  exact fun d hd => ((h key e he d hd).toDeadlineFits.of_advances hT).ahead

/-- In a routed store each shard holds a part of the contents. -/
theorem allDistant_shard (hr : Routed hash db) (h : AllDistant T (db.toMap hash)) (x : Fin (n + 1)) :
    AllDistant T (db.shards x).toMap := by
  intro key e he
  refine h key e ?_
  obtain rfl : shardForKey hash key = x := hr x key (by
    rw [← Database.toMap_apply, he]
    simp)
  exact he

/-- A section on one key whose deadline is distant returns, and updates the contents. -/
theorem keySection_spec (hr : Routed hash db) (h : AllDistant T (db.toMap hash)) (hT : c.Advances T)
    (key : String) (op : KeyOp)
    (hd : ∀ d ∈ op.deadline c (view c.instant (db.shards (shardForKey hash key)).toMap key),
      Distant T d) :
    ∃ locked, (op.run c (db.shards (shardForKey hash key)) key).1 = some locked ∧
      locked.result = op.reply c (db.toMap hash key) ∧
      Routed hash (db.setShard (shardForKey hash key) (op.run c (db.shards (shardForKey hash key)) key).2) ∧
      (db.setShard (shardForKey hash key) (op.run c (db.shards (shardForKey hash key)) key).2).toMap
        hash = Function.update (db.toMap hash) key (op.leaves c (db.toMap hash key)) ∧
      AllDistant T (Function.update (db.toMap hash) key (op.leaves c (db.toMap hash key))) := by
  have hview : view c.instant (db.shards (shardForKey hash key)).toMap key = db.toMap hash key := by
    rw [((allDistant_shard hr h _).allAlive hT).view_eq]
    rfl
  have hspec := keyOp_run_spec c (db.shards (shardForKey hash key)) key op
  obtain ⟨locked, hrun, hreply, -, -, heffect⟩ := hspec.returns fun d hdeadline =>
    (hd d hdeadline).lt_limit
  rw [hview] at hreply heffect hd
  refine ⟨locked, hrun, hreply, hr.effect heffect, ?_, fun k e he => ?_⟩
  · exact (h.allAlive hT).eq_of_effect (effect_setShard heffect)
  · by_cases hk : k = key
    · subst hk
      rw [Function.update_self] at he
      exact KeyOp.deadline_leaves (P := Distant T) (fun e' he' => h k e' he') hd e he
    · rw [Function.update_of_ne hk] at he
      exact h k e he

/-- The deadlines that an action on the store sets. -/
def DbAct.deadlines (c : Clock) (db : ShardedDatabase n) : DbAct n → List Instant
  | .shard x (.key key op) => (op.deadline c (view c.instant (db.shards x).toMap key)).toList
  | _ => []

/-- An action on the store keeps it routed and its deadlines distant. -/
theorem allDistant_exec (hr : Routed hash db) (h : AllDistant T (db.toMap hash)) (hT : c.Advances T)
    {a : DbAct n} {held : List (ServerLock n × LockMode)} (hproper : a.Proper hash held)
    (hd : ∀ d ∈ a.deadlines c db, Distant T d) :
    Routed hash (exec c a db).2 ∧ AllDistant T ((exec c a db).2.toMap hash) := by
  have hsmaller {x : Fin (n + 1)} {shard : Database}
      (hp : ∀ key, shard.lookup key = (db.shards x).lookup key ∨ shard.lookup key = none) :
      Routed hash (db.setShard x shard) ∧ AllDistant T ((db.setShard x shard).toMap hash) := by
    refine ⟨hr.setShard fun key hkey => .inr fun hnone => hkey ?_, fun key e he => ?_⟩
    · rcases hp key with heq | hnone'
      · exact heq.trans hnone
      · exact hnone'
    · rw [toMap_setShard] at he
      split_ifs at he with hx
      · subst hx
        rcases hp key with heq | hnone
        · exact h key e (heq.symm.trans he)
        · rw [hnone] at he
          cases he
      · exact h key e he
  have hpurge {x : Fin (n + 1)} {shard : Database}
      (hp : Purge c.instant (db.shards x).toMap shard.toMap) :
      Routed hash (db.setShard x shard) ∧ AllDistant T ((db.setShard x shard).toMap hash) := by
    refine hsmaller fun key => ?_
    rcases hp key with heq | ⟨hnone, -⟩
    · exact .inl heq
    · exact .inr hnone
  cases a with
  | acquire | release | now | applyLenChange | loadLen | storeLen => exact ⟨hr, h⟩
  | shard x call =>
    cases call with
    | key key op =>
      obtain rfl : shardForKey hash key = x := hproper.1
      obtain ⟨locked, hrun, -, hrouted, hmap, hall⟩ := keySection_spec hr h hT key op fun d hmem =>
        hd d (Option.mem_toList.mpr hmem)
      exact ⟨hrouted, by rw [← hmap] at hall; exact hall⟩
    | keys => exact hpurge (purge_refl _ _)
    | flushdb => exact hsmaller fun key => .inr (AList.lookup_empty key)
    | infoSnapshot | removeExpired => exact hpurge (Database.removeExpired_purge c (db.shards x))
    | snapshotEntries now =>
      refine hsmaller fun key => ?_
      rw [Database.lookup_retain]
      cases (db.shards x).lookup key with
      | none => exact .inl rfl
      | some e =>
        rw [Option.filter_some]
        split_ifs
        · exact .inl rfl
        · exact .inr rfl

/-- No section panics. -/
theorem exec_returns (hr : Routed hash db) (h : AllDistant T (db.toMap hash)) (hT : c.Advances T)
    {a : DbAct n} {held : List (ServerLock n × LockMode)} (hproper : a.Proper hash held)
    (hd : ∀ d ∈ a.deadlines c db, Distant T d) : (exec c a db).1.isSome := by
  cases a with
  | acquire | release | now | applyLenChange | loadLen | storeLen => rfl
  | shard x call =>
    cases call with
    | key key op =>
      obtain rfl : shardForKey hash key = x := hproper.1
      obtain ⟨locked, hrun, -⟩ := keySection_spec hr h hT key op fun d hmem =>
        hd d (Option.mem_toList.mpr hmem)
      change ((op.run c (db.shards (shardForKey hash key)) key).1).isSome
      rw [hrun]
      rfl
    | keys | flushdb | infoSnapshot | removeExpired | snapshotEntries => rfl

end Contents

section States
variable {ι : Type} [DecidableEq ι] {n : ℕ}

/-- A filesystem operation that succeeds does what it does without a fault. -/
def ServerState.Succeeds (s : ServerState ι n) :
    (a : ServerAct n) → Option a.Answer → ServerState ι n → Prop
  | .file b, answer, s' => answer = some (FileSystem.exec b s.files).1 ∧
      s' = { s with files := (FileSystem.exec b s.files).2 }
  | _, _, _ => True

/-- The deadline that an action sets, if it sets one. A section on a key sets it in memory; a
client looks at the clock when it writes the record of its command, which sets it in the log. -/
def ServerAct.deadlines (hash : String → UInt64) (round : Round) (s : ServerState ι n) :
    ServerAct n → List Instant
  | .kv (.db .now) =>
    match round with
    | .client q =>
      match parseCommand q.frame with
      | some (.ok cmd) => (cmd.dbOp.bind DbOp.keyOp).elim [] fun p =>
          (p.2.deadline s.clock (view s.clock.instant (s.kv.db.toMap hash) p.1)).toList
      | _ => []
    | _ => []
  | .kv (.db a) => a.deadlines s.clock s.kv.db
  | _ => []

/-- The deadlines that a step sets. -/
def deadlinesSet (settings : Settings) (cfg : ServerConfig ι n) : Label ι → List Instant
  | .act i | .panic i =>
    match cfg.status i with
    | .running round (.act a _) _ => a.deadlines settings.hash round cfg.shared
    | _ => []
  | _ => []

/-- What happens around the tasks: both clocks go on, though not beyond the time `T`, peers stop
reading or read again, and connections are counted. -/
def ServerState.Passes (T : Clock) (s s' : ServerState ι n) : Prop :=
  s.clock.Advances s'.clock ∧ s'.clock.Advances T ∧ ∃ stalled connected,
    s' = { s with
      clock := s'.clock
      kv := { s.kv with stats := { s.kv.stats with
        counters := Function.update s.kv.stats.counters .connectedClients connected } }
      stalled := stalled }

/-- The server whose filesystem operations succeed and whose clocks advance together, until the
time `T`. -/
def steadySystem (settings : Settings) (roles : ι → Role) (T : Clock) :
    System ι Round (ServerAct n) ServerAct.Answer (ServerLock n) LockMode (ServerState ι n)
      (IoResult Unit) :=
  { serverSystem settings roles fun _ => True with
    does := fun i a s answer s' => s.Does i a answer s' ∧ s.Succeeds a answer s'
    environment := fun _ s s' => s.Passes T s' }

/-- A state in which no stored deadline will have passed at the time `T`. -/
structure Steady (T : Clock) (hash : String → UInt64) (s : ServerState ι n) : Prop where
  routed : ShardedDatabase.Routed hash s.kv.db
  distant : AllDistant T (s.kv.db.toMap hash)
  later : s.clock.Advances T
  epoch : 0 ≤ s.clock.unix

/-- The same files and the same shards. -/
structure Same (s s' : ServerState ι n) : Prop where
  files : s'.files = s.files
  engineFile : s'.engineFile = s.engineFile
  shards : s'.kv.db.shards = s.kv.db.shards

variable {s s' s'' : ServerState ι n} {T : Clock} {hash : String → UInt64} {i : ι}

omit [DecidableEq ι] in
theorem same_refl (s : ServerState ι n) : Same s s := ⟨rfl, rfl, rfl⟩

omit [DecidableEq ι] in
theorem Same.trans (h : Same s s') (h' : Same s' s'') : Same s s'' :=
  ⟨h'.files.trans h.files, h'.engineFile.trans h.engineFile, h'.shards.trans h.shards⟩

omit [DecidableEq ι] in
theorem Same.toMap_eq (h : Same s s') : s'.kv.db.toMap hash = s.kv.db.toMap hash := by
  unfold ShardedDatabase.toMap
  rw [h.shards]

/-- The filesystem operations that change a file. -/
def FileAct.Writes : FileAct → Prop
  | .openAppend _ | .openTruncate _ | .writeAll .. | .removeFile _ | .rename .. => True
  | _ => False

/-- The actions that may change what the log has to agree with. -/
def ServerAct.Touches : ServerAct n → Prop
  | .kv (.db (.shard _ call)) => call.Writes
  | .file b => b.Writes
  | .setEngineFile _ => True
  | _ => False

theorem ServerState.Does.clock_eq {a : ServerAct n} {answer : Option a.Answer} (h : s.Does i a answer s') :
    s'.clock = s.clock := by
  cases h with
  | exec | fileError | sendError => rfl

/-- An action keeps the state steady if the deadlines that it sets are distant. -/
theorem Steady.act (h : Steady T hash s) {a : ServerAct n} {answer : Option a.Answer}
    {held : List (ServerLock n × LockMode)} {round : Round} (hdoes : s.Does i a answer s')
    (hproper : a.Proper hash held) (hd : ∀ d ∈ a.deadlines hash round s, Distant T d) :
    Steady T hash s' := by
  have hclock := hdoes.clock_eq
  have hdb : ShardedDatabase.Routed hash s'.kv.db ∧ AllDistant T (s'.kv.db.toMap hash) := by
    rcases hdoes.db with hdb | ⟨b, rfl, hdb⟩
    · rw [hdb]
      exact ⟨h.routed, h.distant⟩
    · rw [hdb]
      refine allDistant_exec h.routed h.distant h.later hproper fun d hmem => hd d ?_
      cases b with
      | now => cases hmem
      | _ => exact hmem
  refine ⟨hdb.1, hdb.2, ?_, ?_⟩
  · rw [hclock]
    exact h.later
  · rw [hclock]
    exact h.epoch

/-- Nothing panics but a panic. -/
theorem Steady.returns (h : Steady T hash s) {a : ServerAct n} {held : List (ServerLock n × LockMode)}
    {round : Round} (ha : a ≠ .panic) (hproper : a.Proper hash held)
    (hd : ∀ d ∈ a.deadlines hash round s, Distant T d) : ¬ s.Does i a none s' := by
  intro hdoes
  cases hdoes with
  | @exec _ fault _ w hexec =>
    cases a with
    | panic => exact ha rfl
    | file | acquire | release | engineFile | setEngineFile | writeValue => cases hexec
    | kv b =>
      cases b with
      | stat => cases hexec
      | db b =>
        have hsome := exec_returns h.routed h.distant h.later hproper fun d hmem => hd d (by
          cases b with
          | now => cases hmem
          | _ => exact hmem)
        have hnone : (ShardedDatabase.exec s.clock b s.kv.db).1 = none := congrArg Prod.fst hexec
        rw [hnone] at hsome
        cases hsome

/-- What an action that does not touch them leaves. -/
theorem Steady.same (h : Steady T hash s) {a : ServerAct n} {answer : Option a.Answer}
    (hdoes : s.Does i a answer s') (hsucceeds : s.Succeeds a answer s') (ha : ¬ a.Touches) :
    Same s s' := by
  cases hdoes with
  | fileError | sendError => exact same_refl s
  | @exec _ fault _ w hexec =>
    cases a with
    | acquire | release | engineFile | writeValue | panic =>
      cases hexec
      exact ⟨rfl, rfl, rfl⟩
    | setEngineFile => exact absurd trivial ha
    | file b =>
      obtain ⟨-, hs⟩ := hsucceeds
      rw [hs]
      refine ⟨?_, rfl, rfl⟩
      cases b with
      | openAppend | openTruncate | writeAll | removeFile | rename => exact absurd trivial ha
      | readToEnd | flush | syncAll => rfl
      | openRead path | metadataLen path =>
        simp only [FileSystem.exec]
        cases s.files path <;> rfl
    | kv b =>
      cases b with
      | stat =>
        cases hexec
        exact ⟨rfl, rfl, rfl⟩
      | db b =>
        cases hexec
        refine ⟨rfl, rfl, ?_⟩
        change (ShardedDatabase.exec s.clock b s.kv.db).2.shards = s.kv.db.shards
        cases b with
        | acquire | release | now | applyLenChange | loadLen | storeLen => rfl
        | shard x call =>
          have hallAlive := (allDistant_shard h.routed h.distant x).allAlive h.later
          change Function.update s.kv.db.shards x (call.run s.clock (s.kv.db.shards x)).2 = _
          rw [ShardCall.run_eq hallAlive ha, Function.update_eq_self]

end States

end RustKV

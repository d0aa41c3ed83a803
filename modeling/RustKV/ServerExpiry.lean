import Mathlib.Data.Finsupp.Basic
import RustKV.ServerInfo
import RustKV.ShardedExpiry

/-! The count of expired entries. What a task removes because its deadline has passed it owes to
the counter `expired_keys`, until it adds it there. The snapshot of a rewrite never adds what it
removed, nor does a SET that panics on its deadline after it has purged its shard. -/
namespace RustKV
open Decimal Tasks Prog ServerM

section Debts
variable {n : ℕ}

/-- What a section removed and the operation hands over to its caller. -/
def ShardCall.owed : (call : ShardCall) → Locked call.Result → ℕ
  | .key k op, locked => (ShardCall.key k op).reported locked
  | .infoSnapshot, locked => locked.expired
  | .removeExpired, locked => locked.expired
  | _, _ => 0

def ShardCall.isSnapshot : ShardCall → Bool
  | .snapshotEntries _ => true
  | _ => false

theorem ShardCall.run_owed {c : Clock} {db : Database} {call : ShardCall}
    {locked : Locked call.Result} (h : (call.run c db).1 = some locked)
    (hcall : call.isSnapshot = false) : call.owed locked = call.removedExpired c db := by
  have hreported := run_reported h
  cases call with
  | key | infoSnapshot | removeExpired => exact hreported
  | keys | flushdb =>
    cases h
    exact hreported
  | snapshotEntries now => cases hcall

/-- The sections that may panic: a deletion does not. -/
def DbAct.MayPanic : DbAct n → Prop
  | .shard _ (.key _ op) => op ≠ .del
  | _ => False

/-- The states of the protocol are what the task owes. It owes nothing when it may panic, and it
pays everything at once. -/
def dues : Protocol (ServerAct n) ServerAct.Answer ℕ where
  allows debt
    | .kv (.db a) => a.MayPanic → debt = 0
    | .kv (.stat (.fetchAdd .expiredKeys count)) => count = UInt64.ofNat debt
    | .kv (.stat (.store .expiredKeys _)) => False
    | .panic => debt = 0
    | _ => True
  next debt
    | .kv (.db (.shard _ call)), locked => debt + call.owed locked
    | .kv (.stat (.fetchAdd .expiredKeys _)), _ => 0
    | _, _ => debt

/-- The same for the operations of the store. -/
def debts : Protocol (DbAct n) DbAct.Answer ℕ where
  allows debt a := a.MayPanic → debt = 0
  next debt
    | .shard _ call, locked => debt + call.owed locked
    | _, _ => debt

section Operations
variable {hash : String → UInt64}
open ShardedDatabase DbM

theorem owes_onShard (key : String) (op : KeyOp) (hop : op ≠ .del) :
    (onShard (n := n) hash key op).Follows debts (fun debt outcome => debt = outcome.expiredCount) 0 := by
  have howed (locked : Locked op.Result) :
      0 + (ShardCall.key key op).owed locked = locked.expired := by
    cases op <;> first | exact absurd rfl hop | exact Nat.zero_add _
  refine follows_perform_bind nofun fun _ => follows_perform_bind nofun fun _ => ?_
  refine follows_perform_bind (fun _ => rfl) fun locked => ?_
  refine follows_perform_bind nofun fun _ => follows_perform_bind nofun fun _ => ?_
  refine follows_perform_bind nofun fun _ => follows_perform_bind nofun fun _ => ?_
  exact follows_pure (howed locked)

theorem owes_delLoop (keys : List String) (removed expired : ℕ) :
    (delLoop (n := n) hash keys removed expired).Follows debts
      (fun debt outcome => debt = outcome.expiredCount) expired := by
  induction keys generalizing removed expired with
  | nil => exact follows_perform_bind nofun fun _ => follows_pure rfl
  | cons key keys ih =>
    refine follows_perform_bind nofun fun _ => ?_
    refine follows_perform_bind (fun h => absurd rfl h) fun locked => ?_
    refine follows_perform_bind nofun fun _ => ?_
    obtain ⟨error | count, before, after, purged⟩ := locked
    · refine follows_perform_bind nofun fun _ => follows_perform_bind nofun fun _ => ?_
      exact follows_pure rfl
    · exact follows_perform_bind nofun fun _ => ih (removed + count) _

theorem owes_del (keys : List String) :
    (del (n := n) hash keys).Follows debts (fun debt outcome => debt = outcome.expiredCount) 0 := by
  refine follows_perform_bind nofun fun _ => follows_bind (owes_delLoop keys 0 0) ?_
  intro debt outcome h
  exact follows_perform_bind nofun fun _ => follows_pure h

theorem owes_keys : (keys : DbM n _).Follows debts (fun debt _ => debt = 0) 0 := by
  have hloop (shards : List (Fin (n + 1))) (found : List String) :
      (keysLoop shards found).Follows debts (fun debt _ => debt = 0) 0 := by
    induction shards generalizing found with
    | nil => exact follows_pure rfl
    | cons i shards ih =>
      refine follows_perform_bind nofun fun _ => follows_perform_bind nofun fun locked => ?_
      refine follows_perform_bind nofun fun _ => ?_
      obtain ⟨error | more, before, after, purged⟩ := locked
      · exact follows_pure rfl
      · exact ih _
  refine follows_perform_bind nofun fun _ => follows_bind (hloop _ _) ?_
  intro debt result h
  exact follows_perform_bind nofun fun _ => follows_pure h

theorem owes_flushdb : (flushdb (n := n)).Follows debts (fun debt _ => debt = 0) 0 := by
  have hloop (shards : List (Fin (n + 1))) :
      (flushLoop shards).Follows debts (fun debt _ => debt = 0) 0 := by
    induction shards with
    | nil => exact follows_perform_bind nofun fun _ => follows_pure rfl
    | cons i shards ih =>
      refine follows_perform_bind nofun fun _ => follows_perform_bind nofun fun locked => ?_
      obtain ⟨error | _, before, after, purged⟩ := locked
      · refine follows_perform_bind nofun fun _ => follows_perform_bind nofun fun _ => ?_
        exact follows_pure rfl
      · exact follows_perform_bind nofun fun _ => ih
  refine follows_perform_bind nofun fun _ => follows_bind (hloop _) ?_
  intro debt result h
  exact follows_perform_bind nofun fun _ => follows_pure h

/-- A walk owes what it has collected. -/
theorem owes_onEachShard {α : Type} {call : ShardCall} {init : α}
    {collect : α → Locked call.Result → α} (expired : α → ℕ) (hpanic : ∀ key op, call ≠ .key key op)
    (hcollect : ∀ acc locked, expired (collect acc locked) = expired acc + call.owed locked)
    (hinit : expired init = 0) : (onEachShard (n := n) call init collect).Follows debts
      (fun debt acc => debt = expired acc) 0 := by
  refine follows_forEach (fun debt acc i _ h => ?_) hinit.symm
  subst h
  refine follows_perform_bind nofun fun _ => follows_perform_bind ?_ fun locked => ?_
  · intro h
    cases call <;> first | exact absurd rfl (hpanic _ _) | exact h.elim
  · refine follows_perform_bind nofun fun _ => follows_perform_bind nofun fun _ => ?_
    exact follows_pure (hcollect acc locked).symm

theorem owes_infoSnapshot : (infoSnapshot (n := n)).Follows debts
    (fun debt info => debt = info.expiredCount) 0 := by
  refine follows_perform_bind nofun fun _ => ?_
  refine follows_bind (owes_onEachShard Prod.fst nofun (fun _ _ => rfl) rfl) ?_
  intro debt acc h
  exact follows_perform_bind nofun fun _ => follows_perform_bind nofun fun _ => follows_pure h

theorem owes_removeExpired : (removeExpired (n := n)).Follows debts
    (fun debt removed => debt = removed.1) 0 := by
  refine follows_perform_bind nofun fun _ => ?_
  refine follows_bind (owes_onEachShard id nofun (fun _ _ => rfl) rfl) ?_
  intro debt acc h
  exact follows_perform_bind nofun fun _ => follows_perform_bind nofun fun _ => follows_pure h

/-- The snapshot of a rewrite hands nothing over. -/
theorem owes_snapshotEntries : (snapshotEntries (n := n)).Follows debts (fun debt _ => debt = 0) 0 := by
  refine follows_perform_bind nofun fun _ => follows_perform_bind nofun fun now => ?_
  refine follows_bind (owes_onEachShard (fun _ => 0) nofun (fun _ _ => rfl) rfl) ?_
  intro debt acc h
  exact follows_perform_bind nofun fun _ => follows_perform_bind nofun fun _ => follows_pure h

end Operations

section Rounds
variable {α β : Type} {hash : String → UInt64} {settings : Settings} {debt : ℕ}

/-- The actions that neither remove nor count. -/
def ServerAct.Neutral (a : ServerAct n) : Prop :=
  ∀ debt, dues.allows debt a ∧ ∀ answer, dues.next debt a answer = debt

theorem owes_neutral {p : ServerM n α} (hp : p.Only ServerAct.Neutral) (debt : ℕ) :
    p.Follows dues (fun debt' _ => debt' = debt) debt :=
  hp.follows (fun _ ha => (ha debt).1) (fun _ answer ha => (ha debt).2 answer) fun _ => rfl

theorem ServerAct.OnFiles.neutral {a : ServerAct n} (h : a.OnFiles) : a.Neutral := by
  intro debt
  unfold ServerAct.OnFiles at h
  split at h
  · exact ⟨trivial, fun _ => rfl⟩
  · exact ⟨trivial, fun _ => rfl⟩
  · exact ⟨trivial, fun _ => rfl⟩
  · exact ⟨nofun, fun _ => rfl⟩
  · exact h.elim

/-- An operation of the store owes as a part of the server. -/
theorem owes_onDb {final : ℕ → α → Prop} {p : DbM n α} (hp : p.Follows debts final debt) :
    (onDb p).Follows dues final debt := by
  rw [onDb_eq_lift]
  refine follows_lift (R := DbAct.Answer) (ρ := dues) id (fun debt a h => h) (fun debt a answer _ => ?_)
    (fun _ _ h => h) hp
  cases a <;> rfl

/-- The statistics after an operation pay what it owes. -/
theorem owes_count (outcome : DbOutcome α) (reply : RespValue) :
    (onKv (do count outcome; return reply : KvM n _)).Follows dues (fun debt _ => debt = 0)
      outcome.expiredCount :=
  follows_perform_bind trivial fun _ => follows_perform_bind rfl fun _ => follows_pure rfl

theorem owes_counts (field : StatField) (hfield : field ≠ .expiredKeys) (outcome : DbOutcome α)
    (reply : RespValue) :
    (onKv (do KvM.fetchAdd field 1; count outcome; return reply : KvM n _)).Follows dues
      (fun debt _ => debt = 0) outcome.expiredCount := by
  refine follows_perform_bind ?_ fun _ => ?_
  · cases field <;> first | exact absurd rfl hfield | trivial
  · cases field <;> first | exact absurd rfl hfield | exact owes_count outcome reply

theorem owes_counted {p : DbM n (DbOutcome α)} {rest : DbOutcome α → KvM n β}
    (hp : p.Follows debts (fun debt outcome => debt = outcome.expiredCount) 0)
    (hrest : ∀ outcome, (onKv (rest outcome)).Follows dues (fun debt _ => debt = 0)
      outcome.expiredCount) :
    (onKv (KvM.onDb p >>= rest)).Follows dues (fun debt _ => debt = 0) 0 := by
  rw [onKv_bind]
  refine follows_bind (owes_onDb hp) ?_
  rintro debt outcome rfl
  exact hrest outcome

open KvM in
theorem neutral_snapshot : (onKv (ServerStats.snapshot (n := n))).Only ServerAct.Neutral := by
  have hstat (a : StatAct) (ha : ∀ field count, a ≠ .fetchAdd field count)
      (hs : ∀ value, a ≠ .store .expiredKeys value) : (ServerAct.kv (n := n) (.stat a)).Neutral := by
    intro debt
    cases a with
    | fetchAdd field count => exact absurd rfl (ha field count)
    | store field value =>
      cases field <;> first | exact absurd rfl (hs value) | exact ⟨trivial, fun _ => rfl⟩
    | load | loadAofEnabled | elapsedSecs | fixed => exact ⟨trivial, fun _ => rfl⟩
  have hload (field : StatField) : (ServerAct.kv (n := n) (.stat (.load field))).Neutral :=
    hstat _ nofun nofun
  refine ⟨hload _, fun _ => ⟨hstat _ nofun nofun, fun _ => ⟨hstat _ nofun nofun, fun _ => ?_⟩⟩⟩
  refine ⟨hstat _ nofun nofun, ?_⟩
  rintro ⟨serverVersion, role, addr⟩
  refine ⟨hload _, fun _ => ⟨hstat _ nofun nofun, fun _ => ⟨hload _, fun _ => ⟨hload _, fun _ => ?_⟩⟩⟩⟩
  refine ⟨hload _, fun _ => ⟨hload _, fun _ => ⟨hload _, fun _ => ⟨hload _, fun _ => ?_⟩⟩⟩⟩
  exact ⟨hload _, fun _ => ⟨hload _, fun _ => trivial⟩⟩

theorem owes_runCommand {toJson : ServerStatsSnapshot → KvResult String} (cmd : Command) :
    (onKv (runCommand (n := n) hash toJson cmd)).Follows dues (fun debt _ => debt = 0) 0 := by
  cases cmd with
  | ping | unknown => exact follows_pure rfl
  | set key value expire =>
    exact owes_counted (owes_onShard key (.set value expire) nofun)
      fun outcome => owes_counts .setCount nofun outcome _
  | setPxAt key value ts =>
    exact owes_counted (owes_onShard key (.setAtMs value ts) nofun)
      fun outcome => owes_counts .setCount nofun outcome _
  | get key =>
    exact owes_counted (owes_onShard key .get nofun) fun outcome => owes_counts .getCount nofun outcome _
  | exists' key =>
    exact owes_counted (owes_onShard key .exists' nofun) fun outcome => owes_count outcome _
  | expire key seconds =>
    exact owes_counted (owes_onShard key (.expire seconds) nofun)
      fun outcome => owes_count outcome _
  | expireAt key ts =>
    exact owes_counted (owes_onShard key (.expireAtMs ts) nofun)
      fun outcome => owes_count outcome _
  | ttl key =>
    exact owes_counted (owes_onShard key .ttl nofun) fun outcome => owes_count outcome _
  | del keys => exact owes_counted (owes_del keys) fun outcome => owes_counts .delCount nofun outcome _
  | keys =>
    rw [runCommand, onKv_bind]
    refine follows_bind (owes_onDb owes_keys) ?_
    rintro debt result rfl
    exact follows_pure rfl
  | flushDb =>
    rw [runCommand, onKv_bind]
    refine follows_bind (owes_onDb owes_flushdb) ?_
    rintro debt outcome rfl
    exact follows_perform_bind trivial fun _ => follows_pure rfl
  | info =>
    rw [runCommand, onKv_bind]
    refine follows_bind (owes_onDb owes_infoSnapshot) ?_
    rintro debt info rfl
    simp only [onKv_bind]
    refine follows_perform_bind trivial fun _ => follows_perform_bind trivial fun _ => ?_
    refine follows_perform_bind rfl fun _ => follows_bind (owes_neutral neutral_snapshot 0) ?_
    rintro debt stats rfl
    exact follows_pure rfl

theorem owes_executeCommand {toJson : ServerStatsSnapshot → KvResult String} (cmd : Command) :
    (onKv (executeCommand (n := n) hash toJson cmd)).Follows dues (fun debt _ => debt = 0) 0 := by
  unfold executeCommand
  split_ifs
  · exact owes_runCommand cmd
  · exact follows_perform_bind trivial fun _ => owes_runCommand cmd

theorem neutral_of_lock {lock : AofLock} {mode : LockMode} :
    (ServerM.acquire lock mode : ServerM n Unit).Only ServerAct.Neutral ∧
      (ServerM.release lock mode : ServerM n Unit).Only ServerAct.Neutral :=
  ⟨only_perform fun _ => ⟨trivial, fun _ => rfl⟩, only_perform fun _ => ⟨trivial, fun _ => rfl⟩⟩

theorem neutral_writeValue (value : RespValue) :
    (ServerM.writeValue value : ServerM n _).Only ServerAct.Neutral :=
  only_perform fun _ => ⟨trivial, fun _ => rfl⟩

/-- A part that neither removes nor counts, and what comes after it. -/
theorem owes_after {p : ServerM n β} {f : β → ServerM n α} {final : ℕ → α → Prop}
    (hp : p.Only ServerAct.Neutral) (hf : ∀ x, (f x).Follows dues final debt) :
    (p >>= f).Follows dues final debt := by
  refine follows_bind (owes_neutral hp debt) ?_
  rintro debt x rfl
  exact hf x

theorem owes_handleCommand {toJson : ServerStatsSnapshot → KvResult String} {aof : Bool}
    (cmd : Command) :
    (handleCommand (n := n) hash toJson aof cmd).Follows dues (fun debt _ => debt = 0) 0 := by
  have hreply (value : RespValue) : (do
      let written ← ServerM.writeValue value
      release .engine .write
      release .rewriteBarrier .read
      return written : ServerM n _).Follows dues (fun debt _ => debt = 0) 0 :=
    owes_after (neutral_writeValue value) fun _ => owes_after neutral_of_lock.2 fun _ =>
      owes_after neutral_of_lock.2 fun _ => follows_pure rfl
  unfold handleCommand
  split_ifs
  · refine owes_after neutral_of_lock.1 fun _ => owes_after neutral_of_lock.1 fun _ => ?_
    refine owes_after ((only_append cmd).mono fun _ => ServerAct.OnFiles.neutral) ?_
    rintro (error | _)
    · exact hreply _
    · refine follows_bind (owes_executeCommand cmd) ?_
      rintro debt response rfl
      exact hreply response
  · refine follows_bind (owes_executeCommand cmd) ?_
    rintro debt response rfl
    exact owes_neutral (neutral_writeValue response) 0

theorem owes_maybeRewriteAof (path : Path) (rewriteMinSize : ℕ) :
    (maybeRewriteAof (n := n) path rewriteMinSize).Follows dues (fun debt _ => debt = 0) 0 := by
  refine owes_after neutral_of_lock.1 fun _ => ?_
  refine owes_after ((only_fileSize path).mono fun _ => ServerAct.OnFiles.neutral) fun size => ?_
  refine owes_after neutral_of_lock.2 fun _ => ?_
  rcases size with error | currentSize
  · exact follows_pure rfl
  dsimp only
  split_ifs
  · exact follows_pure rfl
  refine owes_after neutral_of_lock.1 fun _ => ?_
  refine follows_bind (owes_onDb owes_snapshotEntries) ?_
  rintro debt snapshot rfl
  refine owes_after neutral_of_lock.1 fun _ => ?_
  refine owes_after ((only_rewrite path snapshot).mono fun _ => ServerAct.OnFiles.neutral)
    fun result => ?_
  refine owes_after neutral_of_lock.2 fun _ => owes_after neutral_of_lock.2 fun _ => ?_
  exact follows_pure rfl

theorem owes_ttlTick : (ttlTick : ServerM n Unit).Follows dues (fun debt _ => debt = 0) 0 := by
  refine follows_bind (owes_onDb owes_removeExpired) ?_
  rintro debt ⟨removed, keyCount⟩ rfl
  exact follows_perform_bind rfl fun _ => follows_act trivial fun _ => follows_pure rfl

/-- Every round pays what it owes. -/
theorem Round.owes_prog (round : Round) :
    (round.prog (n := n) settings).Follows dues (fun debt _ => debt = 0) 0 := by
  cases round with
  | client q =>
    change (handleFrame _ _ _ _).Follows _ _ _
    unfold handleFrame
    split
    · exact follows_act rfl nofun
    · exact owes_neutral (neutral_writeValue _) 0
    · exact owes_handleCommand _
  | rewrite =>
    unfold Round.prog
    dsimp only
    split
    · exact owes_maybeRewriteAof _ _
    · exact follows_pure rfl
  | ttl =>
    refine follows_bind owes_ttlTick ?_
    rintro debt _ rfl
    exact follows_pure rfl

end Rounds

end Debts

section Runs
variable {ι : Type} {n : ℕ}

/-- The entries that a step removes because their deadline has passed. The snapshot of a rewrite
and a section that panics do not hand their number over. -/
structure Removal where
  entries : ℕ
  handedOver : Bool
  deriving DecidableEq

def ServerAct.removed (s : ServerState ι n) : ServerAct n → ℕ
  | .kv (.db (.shard x call)) => call.removedExpired s.clock (s.kv.db.shards x)
  | _ => 0

def ServerAct.handsOver : ServerAct n → Bool
  | .kv (.db (.shard _ call)) => !call.isSnapshot
  | _ => true

def removals (cfg : ServerConfig ι n) : Label ι → List Removal
  | .act i =>
    match cfg.status i with
    | .running _ (.act a _) _ => [⟨a.removed cfg.shared, a.handsOver⟩]
    | _ => []
  | .panic i =>
    match cfg.status i with
    | .running _ (.act a _) _ => [⟨a.removed cfg.shared, false⟩]
    | _ => []
  | .start _ | .finish _ | .environment => []

/-- The number of entries that were removed because their deadline had passed. -/
def removedCount (seen : List Removal) : ℕ := (seen.map Removal.entries).sum

/-- The number of those that nobody was told of. -/
def lostCount (seen : List Removal) : ℕ :=
  ((seen.filter fun removal => !removal.handedOver).map Removal.entries).sum

variable [DecidableEq ι] {s s' : ServerState ι n} {i : ι} {a : ServerAct n} {debt : ℕ}

/-- An action adds to the counter what the task pays, and what it removes it owes or loses. -/
theorem ServerState.Does.pays {answer : a.Answer} (h : s.Does i a (some answer) s')
    (hallows : dues.allows debt a) : ∃ paid,
      s'.kv.stats.counters .expiredKeys = s.kv.stats.counters .expiredKeys + UInt64.ofNat paid ∧
      debt + a.removed s =
        dues.next debt a answer + paid + if a.handsOver then 0 else a.removed s := by
  have hzero (x : UInt64) : x = x + UInt64.ofNat 0 := (UInt64.add_zero x).symm
  by_cases hstat : ∃ b, a = .kv (.stat b)
  · obtain ⟨b, rfl⟩ := hstat
    rw [h.of_stat.2.1]
    cases b with
    | fetchAdd field count =>
      by_cases hfield : field = .expiredKeys
      · subst hfield
        obtain rfl : count = UInt64.ofNat debt := hallows
        exact ⟨debt, by simp [ServerStats.exec], by simp [dues, ServerAct.removed, ServerAct.handsOver]⟩
      · refine ⟨0, ?_, ?_⟩
        · simp only [ServerStats.exec, Function.update_of_ne (Ne.symm hfield)]
          exact hzero _
        · cases field <;> first | exact absurd rfl hfield | rfl
    | store field value =>
      have hfield : field ≠ .expiredKeys := by
        rintro rfl
        exact hallows
      refine ⟨0, ?_, rfl⟩
      simp only [ServerStats.exec, Function.update_of_ne (Ne.symm hfield)]
      exact hzero _
    | load | loadAofEnabled | elapsedSecs | fixed => exact ⟨0, hzero _, rfl⟩
  · refine ⟨0, ?_, ?_⟩
    · rw [h.stats fun b hb => hstat ⟨b, hb⟩]
      exact hzero _
    · cases a with
      | kv b =>
        cases b with
        | db b =>
          cases b with
          | shard x call =>
            have hrun : (call.run s.clock (s.kv.db.shards x)).1 = some answer :=
              congrArg Prod.fst h.of_db.1
            cases hcall : call.isSnapshot
            · have howed := ShardCall.run_owed hrun hcall
              simp [ServerAct.removed, ServerAct.handsOver, hcall, dues, howed]
            · cases call with
              | snapshotEntries now => rfl
              | _ => cases hcall
          | _ => rfl
        | stat b => exact absurd ⟨b, rfl⟩ hstat
      | _ => rfl

/-- A task that panics owes nothing. -/
theorem ServerState.Does.pays_of_panic (h : s.Does i a none s') (hallows : dues.allows debt a) :
    debt = 0 := by
  cases a with
  | kv b =>
    cases b with
    | db b =>
      cases b with
      | shard x call =>
        refine hallows ?_
        have hrun : (call.run s.clock (s.kv.db.shards x)).1 = none := congrArg Prod.fst h.of_db.1
        cases call with
        | key key op =>
          rintro rfl
          simp [ShardCall.run, KeyOp.run, around] at hrun
        | _ => simp [ShardCall.run] at hrun
      | _ => cases congrArg Prod.fst h.of_db.1
    | stat b => cases h.of_stat.1
  | panic => exact hallows
  | file | acquire | release | engineFile | setEngineFile | writeValue =>
    cases h with
    | exec hexec => cases congrArg Prod.fst hexec

/-- The books of a run: what was removed is counted, owed by a task, or lost. -/
structure Books (start : UInt64) (cfg : ServerConfig ι n) (seen : List Removal) (debt : ι →₀ ℕ)
    (paid : ℕ) : Prop where
  counter : cfg.shared.kv.stats.counters .expiredKeys = start + UInt64.ofNat paid
  total : removedCount seen = paid + debt.sum (fun _ owed => owed) + lostCount seen
  owes : ∀ i round p held, cfg.status i = .running round p held →
    p.Follows dues (fun debt _ => debt = 0) (debt i)
  rests : ∀ i, (cfg.status i).isRunning = false → debt i = 0

theorem removedCount_append (seen more : List Removal) :
    removedCount (seen ++ more) = removedCount seen + removedCount more := by
  simp [removedCount]

theorem lostCount_append (seen more : List Removal) :
    lostCount (seen ++ more) = lostCount seen + lostCount more := by
  simp [lostCount]

variable {settings : Settings} {roles : ι → Role} {stalls : ServerStatus n → Prop}
  {cfg cfg' : ServerConfig ι n} {label : Label ι} {start : UInt64} {seen : List Removal}

/-- A step in which a task gets a new status, and owes what its rest will pay. -/
theorem Books.of_step {debts : ι →₀ ℕ} {paid : ℕ} {status : ServerStatus n}
    {removal : List Removal} (h : Books start cfg seen debts paid) (more owed : ℕ)
    (hcounter : s'.kv.stats.counters .expiredKeys =
      cfg.shared.kv.stats.counters .expiredKeys + UInt64.ofNat more)
    (htotal : debts i + removedCount removal = owed + more + lostCount removal)
    (howes : ∀ round p held, status = .running round p held →
      p.Follows dues (fun debt _ => debt = 0) owed)
    (hrests : status.isRunning = false → owed = 0) :
    Books start (cfg.set i s' status) (seen ++ removal) (debts.update i owed) (paid + more) := by
  have hsum := Finsupp.sum_update_add debts i owed (fun _ owed => owed) (fun _ => rfl)
    fun _ _ _ => rfl
  refine ⟨?_, ?_, fun j round p held hj => ?_, fun j hj => ?_⟩
  · rw [Config.set_shared, hcounter, h.counter, UInt64.add_assoc, ← UInt64.ofNat_add]
  · rw [removedCount_append, lostCount_append, h.total]
    omega
  · by_cases hji : j = i
    · subst hji
      rw [Config.set_status_self] at hj
      rw [Finsupp.update_apply, if_pos rfl]
      exact howes round p held hj
    · rw [Config.set_status_ne _ hji] at hj
      rw [Finsupp.update_apply, if_neg hji]
      exact h.owes j round p held hj
  · by_cases hji : j = i
    · subst hji
      rw [Config.set_status_self] at hj
      rw [Finsupp.update_apply, if_pos rfl]
      exact hrests hj
    · rw [Config.set_status_ne _ hji] at hj
      rw [Finsupp.update_apply, if_neg hji]
      exact h.rests j hj

theorem books_step {debts : ι →₀ ℕ} {paid : ℕ} (h : Books start cfg seen debts paid)
    (hstep : Step (serverSystem settings roles stalls) cfg label cfg') :
    ∃ debts paid, Books start cfg' (seen ++ removals cfg label) debts paid := by
  have hsame (x : UInt64) : x = x + UInt64.ofNat 0 := (UInt64.add_zero x).symm
  cases hstep with
  | @start i round hidle hround =>
    have hzero : debts i = 0 := h.rests i (by rw [hidle]; rfl)
    refine ⟨_, _, h.of_step 0 0 (hsame _) (by rw [hzero]; rfl) ?_ nofun⟩
    rintro _ _ _ ⟨⟩
    exact round.owes_prog
  | @act i round a k held answer s' hi _ hdoes =>
    have hf := h.owes i round _ held hi
    obtain ⟨more, hcounter, hpays⟩ := ServerState.Does.pays hdoes hf.1
    have hremovals : removals cfg (.act i) = [⟨a.removed cfg.shared, a.handsOver⟩] := by
      simp only [removals, hi]
    rw [hremovals]
    refine ⟨_, _, h.of_step more (dues.next (debts i) a answer) hcounter ?_ ?_ nofun⟩
    · rw [removedCount, lostCount]
      cases hover : a.handsOver <;> simpa [hover] using hpays
    · rintro _ _ _ ⟨⟩
      exact hf.2 answer
  | @panic i round a k held s' hi _ hdoes =>
    have hf := h.owes i round _ held hi
    have hzero := ServerState.Does.pays_of_panic hdoes hf.1
    have hremovals : removals cfg (.panic i) = [⟨a.removed cfg.shared, false⟩] := by
      simp only [removals, hi]
    rw [hremovals]
    refine ⟨_, _, h.of_step 0 0 ?_ ?_ nofun fun _ => rfl⟩
    · rw [ServerState.Does.stats_of_panic hdoes]
      exact hsame _
    · rw [hzero]
      simp [removedCount, lostCount]
  | @finish i round b held hi =>
    have hzero : debts i = 0 := h.owes i round _ held hi
    refine ⟨_, _, h.of_step 0 0 (hsame _) (by rw [hzero]; rfl) ?_ fun _ => rfl⟩
    intro round p held hstatus
    unfold System.finished at hstatus
    split_ifs at hstatus
  | environment henv =>
    obtain ⟨-, hs, -⟩ := henv
    refine ⟨debts, paid, ?_, ?_, h.owes, h.rests⟩
    · rw [hs]
      exact h.counter
    · rw [removals, List.append_nil]
      exact h.total

/-- Once no task is in the middle of a round, the counter has grown by the number of entries that
were removed because their deadline had passed if and only if none of them was lost: found by the
snapshot of a rewrite, or by a SET that panics on its deadline. -/
theorem expired_counted_iff {labels : List (Label ι)}
    (h : Observed (serverSystem settings roles stalls) removals (.initial s) labels seen cfg)
    (hrest : ∀ i, (cfg.status i).isRunning = false) :
    cfg.shared.kv.stats.counters .expiredKeys =
        s.kv.stats.counters .expiredKeys + UInt64.ofNat (removedCount seen) ↔
      UInt64.ofNat (lostCount seen) = 0 := by
  have hbooks : ∃ debts paid, Books (s.kv.stats.counters .expiredKeys) cfg seen debts paid := by
    clear hrest
    induction h with
    | nil =>
      refine ⟨0, 0, (UInt64.add_zero _).symm, rfl, nofun, fun _ _ => rfl⟩
    | snoc _ hstep ih =>
      obtain ⟨debts, paid, hbooks⟩ := ih
      exact books_step hbooks hstep
  obtain ⟨debts, paid, hbooks⟩ := hbooks
  have hdebts : debts.sum (fun _ owed => owed) = 0 :=
    Finset.sum_eq_zero fun i _ => hbooks.rests i (hrest i)
  rw [hbooks.counter, hbooks.total, hdebts, Nat.add_zero, UInt64.ofNat_add, UInt64.add_right_inj,
    UInt64.left_eq_add]

end Runs

section Sample

/-- The state in which the tasks start. -/
def ServerState.started {n : ℕ} (ι : Type) (c : Clock) (w : World n) : ServerState ι n :=
  { clock := c
    kv := w.kv
    files := w.files
    engineFile := w.engineFile
    sent := fun _ => []
    stalled := fun _ => false }

/-- A log with one key, whose deadline is one second after the epoch. -/
def mortalLog : Bytes := (Record.setPxAt "k" [118] 1000).bytes

/-- The server after the start-up on this log, at the epoch. -/
@[irreducible] def mortalStart : Option (IoResult Unit) × World 0 :=
  (startUp sampleSettings.hash samplePath).run (World.exec ⟨0, 0⟩ none)
    (.restarted (FileSystem.put (fun _ => none) samplePath mortalLog) (.new ⟨0, 0⟩))

/-- Two seconds later. -/
def mortalLater : ServerConfig (Fin 2) 0 :=
  .initial { ServerState.started (Fin 2) ⟨0, 0⟩ mortalStart.2 with clock := ⟨2 * 10^9, 2 * 10^9⟩ }

/-- The rewrite worker and the worker that removes expired entries. -/
def workers : Fin 2 → Role := ![.rewriteWorker, .ttlWorker]

def observeExpiry (moves : List (Move (Fin 2) Round)) :
    Option (List (Label (Fin 2)) × List Removal × ServerConfig (Fin 2) 0) :=
  watch (sampleSystem workers) ServerState.handler removals mortalLater moves

/-- A tick of the worker that rewrites the log, and one of the worker that removes expired entries. -/
def rewriteMoves : List (Move (Fin 2) Round) :=
  .start firstTask .rewrite :: List.replicate 30 (.go firstTask)

def ttlMoves : List (Move (Fin 2) Round) :=
  .start secondTask .ttl :: List.replicate 10 (.go secondTask)

theorem mortalStart_eq : (startUp sampleSettings.hash samplePath).run (World.exec ⟨0, 0⟩ none)
    (.restarted (FileSystem.put (fun _ => none) samplePath mortalLog) (.new ⟨0, 0⟩)) =
      (some (.ok ()), mortalStart.2) := by
  have h : mortalStart.1 = some (.ok ()) := by decide +kernel
  rw [← mortalStart]
  exact Prod.ext h rfl

/-- The clock runs from the epoch to two seconds after it, and then a worker ticks. -/
theorem observed_mortal {moves : List (Move (Fin 2) Round)} {labels : List (Label (Fin 2))}
    {seen : List Removal} {cfg : ServerConfig (Fin 2) 0}
    (hmoves : ∀ i round, Move.start i round ∈ moves → (workers i).makes sampleSettings round)
    (h : observeExpiry moves = some (labels, seen, cfg)) :
    Observed (sampleSystem workers) removals
      (.initial (.started (Fin 2) ⟨0, 0⟩ mortalStart.2)) (.environment :: labels) seen cfg := by
  have hlater : Observed (sampleSystem workers) removals
      (.initial (.started (Fin 2) ⟨0, 0⟩ mortalStart.2)) [.environment] [] mortalLater :=
    Observed.nil.snoc (.environment ⟨by decide, rfl, fun _ h => .inl h⟩)
  exact hlater.append (observed_of_watch handles_serverSystem hmoves h)

theorem ttl_facts : (observeExpiry ttlMoves).any (fun o =>
    decide (∀ i, (o.2.2.status i).isRunning = false) &&
      decide (removedCount o.2.1 = 1 ∧ lostCount o.2.1 = 0)) = true := by decide +kernel

theorem rewrite_facts : (observeExpiry rewriteMoves).any (fun o =>
    decide (∀ i, (o.2.2.status i).isRunning = false) &&
      decide (o.2.2.shared.kv.stats.counters .expiredKeys = 0 ∧ removedCount o.2.1 = 1)) = true := by
  decide +kernel

theorem expired_counted_iff_ttl : ∃ labels seen cfg,
    Observed (sampleSystem workers) removals (.initial (.started (Fin 2) ⟨0, 0⟩ mortalStart.2)) labels
        seen cfg ∧ removedCount seen = 1 ∧
      cfg.shared.kv.stats.counters .expiredKeys =
        mortalStart.2.kv.stats.counters .expiredKeys + UInt64.ofNat (removedCount seen) := by
  obtain ⟨⟨labels, seen, cfg⟩, hobserve, hfacts⟩ := (Option.any_eq_true ..).mp ttl_facts
  simp only [Bool.and_eq_true, decide_eq_true_eq] at hfacts
  obtain ⟨hrest, hremoved, hlost⟩ := hfacts
  have hrun := observed_mortal (by simp [ttlMoves, workers, Role.makes]) hobserve
  exact ⟨_, seen, cfg, hrun, hremoved, (expired_counted_iff hrun hrest).mpr (by rw [hlost]; rfl)⟩

/-- The snapshot of a rewrite removes an expired key, and INFO never tells of it. -/
theorem expired_uncounted : ¬ ∀ (ι : Type) (_ : DecidableEq ι) (n : ℕ) (settings : Settings)
    (roles : ι → Role) (path : Path) (files : FileSystem) (c : Clock) (w : World n)
    (labels : List (Label ι)) (seen : List Removal) (cfg : ServerConfig ι n),
    settings.aofPath = some path →
      (startUp settings.hash path).run (World.exec c none) (.restarted files (.new c)) =
        (some (.ok ()), w) →
      Observed (serverSystem settings roles fun _ => True) removals (.initial (.started ι c w)) labels
        seen cfg →
      (∀ i, (cfg.status i).isRunning = false) →
      cfg.shared.kv.stats.counters .expiredKeys = UInt64.ofNat (removedCount seen) := by
  intro hall
  obtain ⟨⟨labels, seen, cfg⟩, hobserve, hfacts⟩ := (Option.any_eq_true ..).mp rewrite_facts
  simp only [Bool.and_eq_true, decide_eq_true_eq] at hfacts
  obtain ⟨hrest, hcounter, hremoved⟩ := hfacts
  have hrun := observed_mortal (by simp [rewriteMoves, workers, Role.makes, sampleSettings]) hobserve
  have hequal := hall _ _ _ sampleSettings workers samplePath
    (FileSystem.put (fun _ => none) samplePath mortalLog) ⟨0, 0⟩ mortalStart.2 _ seen cfg rfl
    mortalStart_eq hrun hrest
  rw [hcounter, hremoved] at hequal
  cases hequal

end Sample

end RustKV

import RustKV.ServerTasks

/-! Who changes the database of the server. A section on a shard runs within an operation: under
the global lock, on the shard of its key. So nobody changes the database beside a task that holds
the global lock for writing. -/
namespace RustKV
open Decimal Tasks Prog ServerM

section Access
variable {n : ℕ} {hash : String → UInt64}

/-- What an action on the database needs that may change it, where `held` are the guards of the
task. -/
def DbAct.Proper (hash : String → UInt64) (held : List (ServerLock n × LockMode)) : DbAct n → Prop
  | .shard x (.key key _) => ShardedDatabase.shardForKey hash key = x ∧ ∃ mode, (.db .global, mode) ∈ held
  | .shard .. => (.db .global, .write) ∈ held
  | .applyLenChange .. | .storeLen _ => ∃ mode, (.db .global, mode) ∈ held
  | _ => True

def ServerAct.Proper (hash : String → UInt64) (held : List (ServerLock n × LockMode)) :
    ServerAct n → Prop
  | .kv (.db a) => a.Proper hash held
  | _ => True

def access (hash : String → UInt64) :
    Protocol (ServerAct n) ServerAct.Answer (List (ServerLock n × LockMode)) where
  allows held a := a.Proper hash held
  next held a _ := a.use.after held

/-- The actions that do not change the database. -/
def ServerAct.Aside (a : ServerAct n) : Prop := ∀ hash held, a.Proper hash held

theorem ServerAct.OnFiles.aside {a : ServerAct n} (h : a.OnFiles) : a.Aside := by
  intro hash held
  unfold ServerAct.OnFiles at h
  split at h
  · trivial
  · trivial
  · trivial
  · trivial
  · exact h.elim

section Rules
variable {held : List (ServerLock n × LockMode)} {α β : Type}

theorem follows_aside {p : ServerM n α} (hp : p.Only ServerAct.Aside)
    (held : List (ServerLock n × LockMode)) :
    p.Follows (access hash) (fun _ _ => True) held :=
  hp.follows_free (fun held _ ha => ha hash held) held

theorem follows_then {p : ServerM n β} {f : β → ServerM n α}
    (hp : p.Follows (access hash) (fun _ _ => True) held)
    (hf : ∀ x held, (f x).Follows (access hash) (fun _ _ => True) held) :
    (p >>= f).Follows (access hash) (fun _ _ => True) held :=
  follows_bind hp fun held x _ => hf x held

theorem follows_file {p : ServerM n α} (hp : p.Only ServerAct.OnFiles)
    (held : List (ServerLock n × LockMode)) : p.Follows (access hash) (fun _ _ => True) held :=
  follows_aside (hp.mono fun _ => ServerAct.OnFiles.aside) held

/-- A part of a program that only counts. -/
theorem follows_counts {p : KvM n α} (hp : p.Only KvAct.OnStats)
    (held : List (ServerLock n × LockMode)) :
    (onKv p).Follows (access hash) (fun _ _ => True) held := by
  refine follows_aside (only_lift hp fun a ha => ?_) held
  intro hash held
  cases a with
  | db a => exact ha.elim
  | stat a => trivial

/-- An action of an operation is proper under the guards of its stage. -/
theorem Progress.Allows.proper {kind : Kind} {st : Progress n} {a : DbAct n}
    (h : st.Allows hash kind a) (outer : List (ServerLock n × LockMode)) :
    a.Proper hash (st.stage.guards.map (fun guard => (.db guard.1, guard.2)) ++ outer) := by
  cases h with
  | @run mode i call steps hruns =>
    have hglobal : ((.db .global : ServerLock n), kind.mode) ∈
        (Stage.locked kind.mode i mode).guards.map (fun guard => (.db guard.1, guard.2)) ++ outer := by
      simp [Stage.guards]
    cases kind with
    | keyed sections =>
      cases call with
      | key key op => exact ⟨hruns.2.1, _, hglobal⟩
      | _ => exact hruns.elim
    | walking | flushing =>
      cases call with
      | key key op => exact hruns.elim
      | _ => exact hglobal
  | count | storeLen => exact ⟨kind.mode, by simp [Stage.guards]⟩
  | enter | lock | now | loadLen | leave | loadLenLocked | unlock => trivial

theorem onKv_bind (p : KvM n β) (f : β → KvM n α) : onKv (p >>= f) = onKv p >>= fun x => onKv (f x) :=
  lift_bind (S := ServerAct.Answer) p f

theorem onDb_eq_lift (p : DbM n α) : onDb p = Prog.lift (R := DbAct.Answer) (S := ServerAct.Answer)
    (fun a => .kv (.db a)) (fun _ answer => answer) p :=
  lift_lift (R := DbAct.Answer) (S := KvAct.Answer) (T := ServerAct.Answer) p

/-- An operation of the store, whatever the task holds besides. -/
theorem follows_operation {kind : Kind} {final : Progress n → α → Prop} {p : DbM n α}
    (hp : p.Follows (stages hash kind) final ⟨.outside, []⟩)
    (outer : List (ServerLock n × LockMode)) :
    (onDb p).Follows (access hash) (fun _ _ => True) outer := by
  have hinj : Function.Injective (ServerLock.db : DbLock n → ServerLock n) :=
    fun _ _ => ServerLock.db.inj
  let embed (st : Progress n) : List (ServerLock n × LockMode) :=
    st.stage.guards.map (fun guard => (.db guard.1, guard.2)) ++ outer
  rw [onDb_eq_lift]
  refine follows_lift (R := DbAct.Answer) (ρ := access hash) embed (fun st a h => ?_) (fun st a answer h => ?_) (fun _ _ _ => trivial) hp
  · exact Progress.Allows.proper h outer
  · refine (LockUse.after_map hinj a.use st.stage.guards fun lock mode hrel hnot => ?_).trans ?_
    · cases h with
      | leave | unlock =>
        cases hrel
        exact absurd List.mem_cons_self hnot
      | _ => cases hrel
    · rw [← Progress.guards_next answer h]
      rfl

/-- An operation, and the statistics after it. -/
theorem follows_counted {β : Type} {kind : Kind} {final : Progress n → α → Prop} {p : DbM n α}
    {f : α → KvM n β} (hp : p.Follows (stages hash kind) final ⟨.outside, []⟩)
    (hf : ∀ x, (f x).Only KvAct.OnStats) (outer : List (ServerLock n × LockMode)) :
    (onKv (KvM.onDb p >>= f)).Follows (access hash) (fun _ _ => True) outer := by
  rw [onKv_bind]
  exact follows_then (follows_operation hp outer) fun x held => follows_counts (hf x) held

end Rules

section Rounds
variable {settings : Settings} {held : List (ServerLock n × LockMode)} {α : Type}

theorem aside_of_lock {lock : AofLock} {mode : LockMode} :
    (ServerM.acquire lock mode : ServerM n Unit).Only ServerAct.Aside ∧
      (ServerM.release lock mode : ServerM n Unit).Only ServerAct.Aside :=
  ⟨only_perform fun _ _ => trivial, only_perform fun _ _ => trivial⟩

theorem only_stat (a : StatAct) :
    (perform (KvAct.stat a) : KvM n (KvAct.stat (n := n) a).Answer).Only KvAct.OnStats :=
  only_perform trivial

theorem aside_writeValue (value : RespValue) :
    (ServerM.writeValue value : ServerM n _).Only ServerAct.Aside := only_perform fun _ _ => trivial

theorem follows_access_runCommand {toJson : ServerStatsSnapshot → KvResult String} (cmd : Command)
    (held : List (ServerLock n × LockMode)) :
    (onKv (runCommand hash toJson cmd)).Follows (access hash) (fun _ _ => True) held := by
  have hcount {β : Type} (field : StatField) (outcome : DbOutcome β) (reply : RespValue) :
      (do KvM.fetchAdd field 1; count outcome; return reply : KvM n RespValue).Only
        KvAct.OnStats :=
    only_bind (only_perform trivial) fun _ => only_bind (only_count outcome) fun _ => only_pure reply
  have hkey {β : Type} (key : String) (op : KeyOp) {rest : DbOutcome op.Result → KvM n β}
      (hrest : ∀ outcome, (rest outcome).Only KvAct.OnStats) :
      (onKv (KvM.onDb (ShardedDatabase.onShard hash key op) >>= rest)).Follows (access hash)
        (fun _ _ => True) held :=
    follows_counted (follows_onShard key op) hrest held
  have hcounted {β : Type} (outcome : DbOutcome β) (reply : RespValue) :
      (do count outcome; return reply : KvM n RespValue).Only KvAct.OnStats :=
    only_bind (only_count outcome) fun _ => only_pure reply
  cases cmd with
  | ping | unknown => exact follows_pure trivial
  | set key value expire => exact hkey key (.set value expire) fun outcome => hcount _ outcome _
  | setPxAt key value ts => exact hkey key (.setAtMs value ts) fun outcome => hcount _ outcome _
  | get key => exact hkey key .get fun outcome => hcount _ outcome _
  | exists' key => exact hkey key .exists' fun outcome => hcounted outcome _
  | expire key seconds => exact hkey key (.expire seconds) fun outcome => hcounted outcome _
  | expireAt key ts => exact hkey key (.expireAtMs ts) fun outcome => hcounted outcome _
  | ttl key => exact hkey key .ttl fun outcome => hcounted outcome _
  | del keys => exact follows_counted (follows_del keys) (fun outcome => hcount _ outcome _) held
  | keys => exact follows_counted (@follows_keys _ hash) (fun _ => only_pure _) held
  | flushDb =>
    exact follows_counted (@follows_flushdb _ hash)
      (fun outcome => only_bind (only_stat (.store .keyCount _)) fun _ => only_pure _) held
  | info =>
    refine follows_counted (@follows_infoSnapshot _ hash) (fun info => ?_) held
    refine only_bind (only_perform trivial) fun _ => only_bind (only_perform trivial) fun _ => ?_
    exact only_bind (only_perform trivial) fun _ => only_bind only_snapshot fun _ => only_pure _

theorem follows_access_executeCommand {toJson : ServerStatsSnapshot → KvResult String}
    (cmd : Command) (held : List (ServerLock n × LockMode)) :
    (onKv (executeCommand hash toJson cmd)).Follows (access hash) (fun _ _ => True) held := by
  unfold executeCommand
  split_ifs
  · exact follows_access_runCommand cmd held
  · rw [onKv_bind]
    refine follows_then (follows_counts (only_stat (.fetchAdd .totalCommands 1)) held) fun _ held => ?_
    exact follows_access_runCommand cmd held

theorem follows_access_handleCommand {toJson : ServerStatsSnapshot → KvResult String} {aof : Bool}
    (cmd : Command) :
    (handleCommand (n := n) hash toJson aof cmd).Follows (access hash) (fun _ _ => True) held := by
  have hreply (value : RespValue) : (do
      let written ← ServerM.writeValue value
      release .engine .write
      release .rewriteBarrier .read
      return written : ServerM n _).Only ServerAct.Aside :=
    only_bind (aside_writeValue value) fun _ => only_bind aside_of_lock.2 fun _ =>
      only_bind aside_of_lock.2 fun _ => only_pure _
  unfold handleCommand
  split_ifs
  · refine follows_then (follows_aside aside_of_lock.1 held) fun _ held => ?_
    refine follows_then (follows_aside aside_of_lock.1 held) fun _ held => ?_
    refine follows_then (follows_file (only_append cmd) held) ?_
    rintro (error | _) held
    · exact follows_aside (hreply _) held
    · refine follows_then (follows_access_executeCommand cmd held) fun response held => ?_
      exact follows_aside (hreply response) held
  · refine follows_then (follows_access_executeCommand cmd held) fun response held => ?_
    exact follows_aside (aside_writeValue response) held

theorem follows_access_maybeRewriteAof (path : Path) (rewriteMinSize : ℕ) :
    (maybeRewriteAof (n := n) path rewriteMinSize).Follows (access hash) (fun _ _ => True) held := by
  refine follows_then (follows_aside aside_of_lock.1 held) fun _ held => ?_
  refine follows_then (follows_file (only_fileSize path) held) fun size held => ?_
  refine follows_then (follows_aside aside_of_lock.2 held) fun _ held => ?_
  rcases size with error | currentSize
  · exact follows_pure trivial
  dsimp only
  split_ifs
  · exact follows_pure trivial
  refine follows_then (follows_aside aside_of_lock.1 held) fun _ held => ?_
  refine follows_then (follows_operation (@follows_snapshotEntries _ hash) held)
    fun snapshot held => ?_
  refine follows_then (follows_aside aside_of_lock.1 held) fun _ held => ?_
  refine follows_then (follows_file (only_rewrite path snapshot) held) fun result held => ?_
  refine follows_then (follows_aside aside_of_lock.2 held) fun _ held => ?_
  exact follows_then (follows_aside aside_of_lock.2 held) fun _ _ => follows_pure trivial

theorem follows_access_ttlTick :
    (ttlTick : ServerM n Unit).Follows (access hash) (fun _ _ => True) held := by
  refine follows_then (follows_operation (@follows_removeExpired _ hash) held) ?_
  rintro ⟨removed, keyCount⟩ held
  refine follows_then (follows_counts (only_stat (.fetchAdd .expiredKeys _)) held) fun _ held => ?_
  exact follows_counts (only_stat (.store .keyCount _)) held

/-- In every round the database is changed within operations only. -/
theorem Round.follows_access (round : Round) :
    (round.prog (n := n) settings).Follows (access settings.hash) (fun _ _ => True) [] := by
  cases round with
  | client q =>
    change (handleFrame _ _ _ _).Follows _ _ _
    unfold handleFrame
    split
    · exact follows_act trivial nofun
    · exact follows_aside (aside_writeValue _) []
    · exact follows_access_handleCommand _
  | rewrite =>
    unfold Round.prog
    dsimp only
    split
    · exact follows_access_maybeRewriteAof _ _
    · exact follows_pure trivial
  | ttl => exact follows_then follows_access_ttlTick fun _ _ => follows_pure trivial

end Rounds

section Runs
variable {ι : Type} [DecidableEq ι] {settings : Settings} {roles : ι → Role}
  {stalls : ServerStatus n → Prop} {s : ServerState ι n} {cfg cfg' : ServerConfig ι n}

theorem access_serverSystem : Disciplined (serverSystem (n := n) settings roles stalls)
    (fun _ => access settings.hash) (fun _ _ _ => True) [] id where
  start := rfl
  follows _ round _ := round.follows_access
  guards_next _ _ _ _ _ := rfl

theorem proper_of_reachable (h : Reachable (serverSystem settings roles stalls) s cfg) {i : ι}
    {round : Round} {a : ServerAct n} {k : a.Answer → ServerM n (IoResult Unit)}
    {held : List (ServerLock n × LockMode)} (hi : cfg.status i = .running round (.act a k) held) :
    a.Proper settings.hash held := by
  obtain ⟨st, hf, rfl, -⟩ := access_serverSystem.follows_of_reachable h hi
  exact hf.1

/-- What an action leaves of the database. -/
theorem ServerState.Does.db {s s' : ServerState ι n} {i : ι} {a : ServerAct n}
    {answer : Option a.Answer} (h : s.Does i a answer s') : s'.kv.db = s.kv.db ∨
      ∃ b, a = .kv (.db b) ∧ s'.kv.db = (ShardedDatabase.exec s.clock b s.kv.db).2 := by
  cases h with
  | @exec _ fault _ w hexec =>
    cases a with
    | kv b =>
      cases b with
      | db b =>
        right
        cases hexec
        exact ⟨b, rfl, rfl⟩
      | stat b =>
        left
        cases hexec
        rfl
    | file | acquire | release | engineFile | setEngineFile | writeValue | panic =>
      left
      cases hexec
      rfl
  | fileError | sendError => exact .inl rfl

/-- Without a guard of the global lock an action leaves the database as it is. -/
theorem exec_eq_of_proper {c : Clock} {a : DbAct n} {db : ShardedDatabase n}
    {held : List (ServerLock n × LockMode)} (h : a.Proper hash held)
    (hno : ∀ mode, (.db .global, mode) ∉ held) : (ShardedDatabase.exec c a db).2 = db := by
  cases a with
  | shard x call =>
    cases call with
    | key key op =>
      obtain ⟨-, mode, hmode⟩ := h
      exact absurd hmode (hno mode)
    | _ => exact absurd h (hno .write)
  | applyLenChange | storeLen =>
    obtain ⟨mode, hmode⟩ := h
    exact absurd hmode (hno mode)
  | acquire | release | now | loadLen => rfl

theorem exclusive_serverSystem (h : Reachable (serverSystem settings roles stalls) s cfg) :
    Exclusive (serverSystem settings roles stalls) cfg :=
  exclusive_of_reachable LockMode.Compatible.symm h

/-- Beside a writer of the global lock nobody changes the database. -/
theorem db_eq_of_writer (h : Reachable (serverSystem settings roles stalls) s cfg) {i : ι}
    (hi : (.db .global, .write) ∈ (cfg.status i).held) {label : Label ι}
    (hstep : Step (serverSystem settings roles stalls) cfg label cfg')
    (hl : label.task ≠ some i) : cfg'.shared.kv.db = cfg.shared.kv.db := by
  -- a task that acts meanwhile has no guard of the global lock
  have hact {j : ι} {round : Round} {a : ServerAct n} {k : a.Answer → ServerM n (IoResult Unit)}
      {held : List (ServerLock n × LockMode)} {answer : Option a.Answer} {s' : ServerState ι n}
      (hj : cfg.status j = .running round (.act a k) held) (hij : some j ≠ some i)
      (hdoes : cfg.shared.Does j a answer s') : s'.kv.db = cfg.shared.kv.db := by
    rcases hdoes.db with hdb | ⟨b, rfl, hdb⟩
    · exact hdb
    · rw [hdb]
      refine exec_eq_of_proper (proper_of_reachable h hj) fun mode hmode => ?_
      have hcompat := exclusive_serverSystem h i j (.db .global) .write mode
        (fun hji => hij (congrArg some hji.symm)) hi (by rw [hj]; exact hmode)
      exact absurd hcompat.1 (by decide)
  cases hstep with
  | start | finish => rfl
  | act hj _ hdoes | panic hj _ hdoes => exact hact hj hl hdoes
  | environment henv =>
    obtain ⟨-, hs, -⟩ := henv
    rw [hs]

end Runs

end Access

end RustKV

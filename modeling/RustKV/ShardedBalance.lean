import RustKV.ShardedTasks

/-! The key counter beside other tasks. A section and the update of the counter that follows it
are two steps. Outside of `flushdb` the counter is the number of entries in all shards, where a
shard counts as before while its update is due. The exception is a `set` that panics on its
deadline after it has purged its shard: what it purged is never taken from the counter. -/
namespace RustKV
open Decimal TimedMap Tasks Prog ShardedDatabase

section Panics

theorem Database.retain_eq_self {db : Database} {keep : String → Entry → Bool}
    (h : ∀ key entry, db.lookup key = some entry → keep key entry) : db.retain keep = db := by
  refine AList.ext ?_
  rw [Database.retain, List.filter_eq_self]
  rintro ⟨key, entry⟩ hmem
  exact h key entry ((Database.lookup_eq_some_iff db key entry).mpr hmem)

theorem Database.removeExpired_of_alive {c : Clock} {db : Database}
    (h : ∀ key entry, db.lookup key = some entry → alive c.instant entry) :
    (db.removeExpired c).2 = db := by
  change db.retain (fun _ entry => !Entry.isExpired c entry) = db
  refine Database.retain_eq_self fun key entry hmem => ?_
  rw [Entry.isExpired_eq, Bool.not_not]
  exact h key entry hmem

/-- A set whose deadline does not fit in an `Instant` runs on a shard without dead entries. -/
def Careful {n : ℕ} : DbAct n → Clocked n → Prop
  | .shard i (.key _ op), s => (∃ t ∈ op.deadline s.clock none, instantLimit ≤ t) →
    ∀ key entry, (s.db.shards i).lookup key = some entry → alive s.clock.instant entry
  | _, _ => True

/-- A section that panics leaves its shard as it was, if it had nothing to purge. -/
theorem ShardCall.run_of_panic {c : Clock} {shard : Database} {call : ShardCall}
    (hnone : (call.run c shard).1 = none)
    (halive : ∀ key op, call = .key key op → (∃ t ∈ op.deadline c none, instantLimit ≤ t) →
      ∀ key entry, shard.lookup key = some entry → alive c.instant entry) :
    (call.run c shard).2 = shard := by
  have haround {α : Type} (o : Option (KvResult α × Database)) (h : (around shard o).1 = none) :
      (around shard o).2 = shard := by
    rcases o with _ | ⟨result, db'⟩
    · rfl
    · simp [around] at h
  have hpurge {α : Type} (body : Database → Option (KvResult α × Database))
      (h : (afterPurge c shard body).1 = none) :
      (afterPurge c shard body).2 = (shard.removeExpired c).2 := by
    unfold afterPurge at h ⊢
    rcases hb : body (shard.removeExpired c).2 with _ | ⟨result, db'⟩
    · simp [hb]
    · simp [hb] at h
  have hlate (key : String) (op : KeyOp) (h : (op.run c shard key).1 = none) :
      ∃ t ∈ op.deadline c (view c.instant shard.toMap key), instantLimit ≤ t := by
    by_contra hno
    obtain ⟨locked, hsome, -⟩ := (keyOp_run_spec c shard key op).returns fun t ht =>
      not_le.mp fun hle => hno ⟨t, ht, hle⟩
    rw [h] at hsome
    cases hsome
  cases call with
  | key key op =>
    have hover := hlate key op hnone
    have hall := halive key op rfl
    cases op with
    | set | setAtMs => exact (hpurge _ hnone).trans (Database.removeExpired_of_alive (hall hover))
    | get | del | exists' | expire | expireAtMs | ttl => exact haround _ hnone
  | keys | flushdb | infoSnapshot | removeExpired | snapshotEntries =>
    simp [ShardCall.run] at hnone

end Panics

section Balance
variable {ι : Type} {n : ℕ} {cfg : DbConfig ι n} {i j : ι} {x y : Fin (n + 1)} {before after : ℕ}

/-- The task `j` has changed the shard `x`, and the update of the counter is its next action. -/
def DueBy (cfg : DbConfig ι n) (j : ι) (x : Fin (n + 1)) (before after : ℕ) : Prop :=
  ∃ call k held, cfg.status j = .running call (.act (.applyLenChange before after) k) held ∧
    (.shard x, .write) ∈ held

/-- The task `j` is in the critical section of `flushdb`. -/
def InFlush (cfg : DbConfig ι n) (j : ι) : Prop :=
  ∃ p held, cfg.status j = .running (.op .flushdb) p held ∧ (.global, .write) ∈ held

/-- The counter is the sum of these counts of the shards: the number of entries, but before the
change where an update is due. -/
structure Balanced (cfg : DbConfig ι n) (counted : Fin (n + 1) → ℕ) : Prop where
  total : cfg.shared.db.keyCount = ∑ x, counted x
  due : ∀ x j before after, DueBy cfg j x before after →
    counted x = before ∧ (cfg.shared.db.shards x).len = after
  settled : ∀ x, (∀ j before after, ¬ DueBy cfg j x before after) →
    counted x = (cfg.shared.db.shards x).len

theorem DueBy.holds (h : DueBy cfg j x before after) :
    (.shard x, .write) ∈ (cfg.status j).held := by
  obtain ⟨call, k, held, hj, hx⟩ := h
  rwa [hj]

/-- An update that is due does not underflow. -/
theorem Balanced.not_underflows {counted : Fin (n + 1) → ℕ} (h : Balanced cfg counted)
    (hdue : DueBy cfg j x before after) :
    ¬ Underflows (.applyLenChange before after) cfg.shared.db := by
  rintro ⟨-, hlt⟩
  have hle : counted x ≤ ∑ y, counted y :=
    Finset.single_le_sum (fun _ _ => Nat.zero_le _) (Finset.mem_univ x)
  rw [(h.due x j before after hdue).1, ← h.total] at hle
  omega

theorem Balanced.stored_eq {counted : Fin (n + 1) → ℕ} (h : Balanced cfg counted)
    (hquiet : ∀ j x before after, ¬ DueBy cfg j x before after) :
    cfg.shared.db.keyCount = cfg.shared.db.stored := by
  rw [h.total, stored]
  exact Finset.sum_congr rfl fun x _ => h.settled x fun j => hquiet j x

theorem balanced_of_stored_eq (hquiet : ∀ j x before after, ¬ DueBy cfg j x before after)
    (h : cfg.shared.db.keyCount = cfg.shared.db.stored) :
    Balanced cfg fun x => (cfg.shared.db.shards x).len :=
  ⟨h, fun x j before after hdue => absurd hdue (hquiet j x before after), fun _ _ => rfl⟩

/-- A step that leaves the store as it is, and no update due or done. -/
theorem Balanced.of_same {cfg' : DbConfig ι n} {counted : Fin (n + 1) → ℕ} (h : Balanced cfg counted)
    (hdb : cfg'.shared.db = cfg.shared.db)
    (hdue : ∀ j x before after, DueBy cfg' j x before after ↔ DueBy cfg j x before after) :
    Balanced cfg' counted := by
  refine ⟨by rw [hdb]; exact h.total, fun x j before after hd => ?_, fun x hx => ?_⟩
  · rw [hdb]
    exact h.due x j before after ((hdue ..).mp hd)
  · rw [hdb]
    exact h.settled x fun j before after hd => hx j before after ((hdue ..).mpr hd)

theorem dueBy_set_ne [DecidableEq ι] {s : Clocked n} {status : DbStatus n} (hj : j ≠ i) :
    DueBy (cfg.set i s status) j x before after ↔ DueBy cfg j x before after := by
  unfold DueBy
  rw [cfg.set_status_ne hj]

/-- An update of the counter is due only in the stage `changed`. -/
theorem not_dueBy_of_stage {hash : String → UInt64} {call : DbCall} {st : Progress n}
    {p : DbM n CallReply} {held : List (DbLock n × LockMode)}
    (hi : cfg.status i = .running call p held)
    (hf : Follows (stages hash call.kind) call.Ends st p)
    (hst : ∀ y before after, st.stage ≠ .changed call.kind.mode y before after) :
    ¬ DueBy cfg i x before after := by
  rintro ⟨call', k, held', hi', -⟩
  rw [hi] at hi'
  cases hi'
  have hallows := hf.1
  change st.Allows hash call.kind _ at hallows
  cases hallows
  exact hst _ _ _ rfl

/-- In the stage `changed` an update of the counter is due. -/
theorem dueBy_iff_of_stage {hash : String → UInt64} {call : DbCall} {st : Progress n}
    {p : DbM n CallReply} (hi : cfg.status i = .running call p st.stage.guards)
    (hf : Follows (stages hash call.kind) call.Ends st p) {mode : LockMode}
    (hst : st.stage = .changed mode x before after) {b a : ℕ} :
    DueBy cfg i y b a ↔ y = x ∧ b = before ∧ a = after := by
  constructor
  · rintro ⟨call', k, held', hi', hy⟩
    rw [hi] at hi'
    cases hi'
    have hallows := hf.1
    change st.Allows hash call.kind _ at hallows
    cases hallows
    cases hst
    simpa [Stage.guards] using hy
  · rintro ⟨rfl, rfl, rfl⟩
    cases p with
    | ret r =>
      have hleft : st.stage = .left := hf.1
      rw [hst] at hleft
      cases hleft
    | act a k =>
      have hallows := hf.1
      change st.Allows hash call.kind a at hallows
      cases hallows <;> cases hst
      exact ⟨call, k, _, hi, List.mem_cons_self⟩

variable [DecidableEq ι]

/-- The section of the task `i` on the shard `x`: its update becomes due. -/
theorem Balanced.of_section {counted : Fin (n + 1) → ℕ} {s : Clocked n} {status : DbStatus n}
    {shard : Database} (h : Balanced cfg counted)
    (hs : s.db = cfg.shared.db.setShard x shard)
    (hbefore : before = (cfg.shared.db.shards x).len) (hafter : after = shard.len)
    (hi : ∀ y before after, ¬ DueBy cfg i y before after)
    (hdue : ∀ y b a, DueBy (cfg.set i s status) i y b a ↔ y = x ∧ b = before ∧ a = after)
    (hother : ∀ j ≠ i, ∀ before after, ¬ DueBy cfg j x before after) :
    Balanced (cfg.set i s status) counted := by
  have hnone : ∀ j before after, ¬ DueBy cfg j x before after := by
    intro j before after
    by_cases hj : j = i
    · exact hj ▸ hi x before after
    · exact hother j hj before after
  have hshards (y : Fin (n + 1)) (hy : y ≠ x) : s.db.shards y = cfg.shared.db.shards y := by
    rw [hs, setShard_shards, Function.update_of_ne hy]
  refine ⟨?_, fun y j b a hd => ?_, fun y hy => ?_⟩
  · rw [Config.set_shared, hs]
    exact h.total
  · by_cases hj : j = i
    · subst hj
      obtain ⟨rfl, rfl, rfl⟩ := (hdue y b a).mp hd
      rw [Config.set_shared, hs, setShard_shards, Function.update_self]
      exact ⟨(h.settled y hnone).trans hbefore.symm, hafter.symm⟩
    · rw [dueBy_set_ne hj] at hd
      have hy : y ≠ x := by
        rintro rfl
        exact hnone j b a hd
      rw [Config.set_shared, hshards y hy]
      exact h.due y j b a hd
  · have hyx : y ≠ x := by
      rintro rfl
      exact hy i before after ((hdue ..).mpr ⟨rfl, rfl, rfl⟩)
    rw [Config.set_shared, hshards y hyx]
    refine h.settled y fun j b a hd => ?_
    by_cases hj : j = i
    · exact hi y b a (hj ▸ hd)
    · exact hy j b a ((dueBy_set_ne hj).mpr hd)

/-- The update of the task `i` for the shard `x`. -/
theorem Balanced.of_update {counted : Fin (n + 1) → ℕ} {s : Clocked n} {status : DbStatus n}
    (h : Balanced cfg counted)
    (hs : s.db = { cfg.shared.db with
      keyCount := lenAfterChange cfg.shared.db.keyCount before after })
    (hdue : DueBy cfg i x before after) (hi : ∀ y b a, ¬ DueBy (cfg.set i s status) i y b a)
    (hother : ∀ j ≠ i, ∀ before after, ¬ DueBy cfg j x before after)
    (honly : ∀ y b a, DueBy cfg i y b a → y = x) :
    Balanced (cfg.set i s status) (Function.update counted x after) := by
  obtain ⟨hx, hlen⟩ := h.due x i before after hdue
  refine ⟨?_, fun y j b a hd => ?_, fun y hy => ?_⟩
  · have hsplit := Finset.add_sum_erase Finset.univ counted (Finset.mem_univ x)
    have hsplit' := Finset.add_sum_erase Finset.univ (Function.update counted x after)
      (Finset.mem_univ x)
    have hrest : ∑ y ∈ Finset.univ.erase x, Function.update counted x after y =
        ∑ y ∈ Finset.univ.erase x, counted y :=
      Finset.sum_congr rfl fun y hy => Function.update_of_ne (Finset.ne_of_mem_erase hy) ..
    rw [Function.update_self, hrest] at hsplit'
    have htotal := h.total
    rw [Config.set_shared, hs]
    simp only [lenAfterChange]
    split_ifs <;> omega
  · by_cases hj : j = i
    · exact absurd (hj ▸ hd) (hi y b a)
    · rw [dueBy_set_ne hj] at hd
      have hyx : y ≠ x := by
        rintro rfl
        exact hother j hj b a hd
      rw [Function.update_of_ne hyx, Config.set_shared, hs]
      exact h.due y j b a hd
  · rw [Config.set_shared, hs]
    by_cases hyx : y = x
    · subst hyx
      rw [Function.update_self]
      exact hlen.symm
    · rw [Function.update_of_ne hyx]
      refine h.settled y fun j b a hd => ?_
      by_cases hj : j = i
      · subst hj
        exact hyx (honly y b a hd)
      · exact hy j b a ((dueBy_set_ne hj).mpr hd)

end Balance

section Flush
variable {n : ℕ} {hash : String → UInt64}

/-- Run alone, the rest of a `flushdb` leaves a counter that is right. -/
def Clears (p : DbM n CallReply) (db : ShardedDatabase n) : Prop :=
  ∀ c, ∃ r db', p.run (exec c) db = (some r, db') ∧ db'.keyCount = db'.stored

theorem clears_flushdb (db : ShardedDatabase n) : Clears ((DbCall.op .flushdb).task hash) db := by
  intro c
  have hrun : runAt c flushdb db = (some ⟨.ok (), 0, 0⟩, ⟨fun _ => ∅, 0⟩) := by
    rw [flushdb, runAt_acquire, runAt_bind, flushLoop_spec]
    simp
  refine ⟨.reply (.unit (.ok ())), ⟨fun _ => ∅, 0⟩, ?_, by simp [stored, Database.len]⟩
  exact run_bind_some (run_bind_some hrun)

theorem Clears.of_step {c : Clock} {st : Progress n} {a : DbAct n} {k : a.Answer → DbM n CallReply}
    {db db' : ShardedDatabase n} {answer : a.Answer} (h : Clears (.act a k) db)
    (hallows : st.Allows hash .flushing a) (ha : exec c a db = (some answer, db')) :
    Clears (k answer) db' := by
  intro c'
  have hsame : exec c' a db = exec c a db := by
    cases hallows with
    | now hkind => cases hkind
    | run hruns =>
      rename_i call _
      cases call <;> first | exact hruns.elim | rfl
    | _ => rfl
  obtain ⟨r, db'', hrun, hcount⟩ := h c'
  refine ⟨r, db'', ?_, hcount⟩
  rwa [run_act, hsame, ha] at hrun

/-- No section of a `flushdb` panics. -/
theorem exec_flushing_isSome {c : Clock} {st : Progress n} {a : DbAct n} {db : ShardedDatabase n}
    (hallows : st.Allows hash .flushing a) : (exec c a db).1 ≠ none := by
  cases hallows with
  | run hruns =>
    rename_i call _
    cases call <;> first | exact hruns.elim | exact Option.some_ne_none _
  | _ => exact Option.some_ne_none _

end Flush

section Runs
variable {ι : Type} [DecidableEq ι] {n : ℕ} {hash : String → UInt64} {calls : ι → DbCall}
  {ticks : (ι → DbStatus n) → Clock → Clock → Prop} {cfg : DbConfig ι n} {c : Clock}

/-- The counter is balanced outside of `flushdb`, and a `flushdb` will balance it. -/
structure CounterInv (cfg : DbConfig ι n) : Prop where
  flushing : ∀ j p held, cfg.status j = .running (.op .flushdb) p held →
    (.global, .write) ∈ held → Clears p cfg.shared.db
  balanced : (∀ j, ¬ InFlush cfg j) → ∃ counted, Balanced cfg counted

/-- Only entering brings the global lock. -/
theorem Progress.global_mem_of_next {kind : Kind} {st : Progress n} {a : DbAct n}
    {answer : a.Answer} (h : st.Allows hash kind a) (hst : st.stage ≠ .outside)
    (hg : (.global, .write) ∈ (st.next a answer).stage.guards) :
    (.global, .write) ∈ st.stage.guards := by
  rw [Progress.guards_next answer h] at hg
  cases h with
  | enter => exact absurd rfl hst
  | lock => simpa [DbAct.use, LockUse.after] using hg
  | leave | unlock => exact List.mem_of_mem_erase hg
  | now | loadLen | storeLen | run | loadLenLocked | count => exact hg

theorem DbCall.eq_flushdb {call : DbCall} (h : call.kind = .flushing) : call = .op .flushdb := by
  rcases call with o | purger
  · cases o <;> first | rfl | cases h
  · cases h

theorem inFlush_set_ne {i j : ι} {s : Clocked n} {status : DbStatus n} (hj : j ≠ i) :
    InFlush (cfg.set i s status) j ↔ InFlush cfg j := by
  unfold InFlush
  rw [cfg.set_status_ne hj]

/-- The store after an action that is neither a section nor an update of the counter. -/
theorem exec_quiet {a : DbAct n} {db db' : ShardedDatabase n} {answer : a.Answer}
    (ha : exec c a db = (some answer, db')) (hshard : ∀ x call, a ≠ .shard x call)
    (hcount : ∀ before after, a ≠ .applyLenChange before after)
    (hstore : ∀ count, a ≠ .storeLen count) : db' = db := by
  cases a with
  | shard x call => exact absurd rfl (hshard x call)
  | applyLenChange before after => exact absurd rfl (hcount before after)
  | storeLen count => exact absurd rfl (hstore count)
  | acquire | release | now | loadLen =>
    cases ha
    rfl

/-- Under the lock of a task no other one has an update due. -/
theorem not_dueBy_of_holds {Q : DbAct n → Clocked n → Prop} {s₀ : Clocked n} {i : ι}
    (hreach : Reachable ((dbSystem hash calls ticks).restrict Q) s₀ cfg) {x : Fin (n + 1)}
    (hx : (.shard x, .write) ∈ (cfg.status i).held) :
    ∀ j ≠ i, ∀ before after, ¬ DueBy cfg j x before after := by
  intro j hj before after hd
  have := exclusive_dbSystem hreach j i (.shard x) .write .write hj hd.holds hx
  exact absurd this.1 (by decide)

/-- A section of a task while nobody is in `flushdb`. -/
theorem Balanced.of_run {Q : DbAct n → Clocked n → Prop} {s₀ : Clocked n} {i : ι}
    (hreach : Reachable ((dbSystem hash calls ticks).restrict Q) s₀ cfg)
    {counted : Fin (n + 1) → ℕ} (h : Balanced cfg counted) (hno : ¬ InFlush cfg i) {call : DbCall}
    {x : Fin (n + 1)} {scall : ShardCall} {k : Locked scall.Result → DbM n CallReply}
    {held : List (DbLock n × LockMode)}
    (hi : cfg.status i = .running call (.act (.shard x scall) k) held) {mode : LockMode}
    {steps : List KeyStep} (hruns : call.kind.Runs hash steps.length x mode scall)
    (hg : held = [(.shard x, mode), (.global, call.kind.mode)]) {locked : Locked scall.Result}
    {shard : Database}
    (hrun : scall.run cfg.shared.clock (cfg.shared.db.shards x) = (some locked, shard))
    (hnext : Follows (stages hash call.kind) call.Ends
      (Progress.next ⟨.locked call.kind.mode x mode, steps⟩ (.shard x scall) locked) (k locked)) :
    ∃ counted, Balanced (cfg.set i { cfg.shared with db := cfg.shared.db.setShard x shard }
      (.running call (k locked) held)) counted := by
  have hlen := (scall.run_len cfg.shared.clock (cfg.shared.db.shards x)).2 locked (by rw [hrun])
  rw [hrun] at hlen
  have hnot : ∀ y before after, ¬ DueBy cfg i y before after := by
    rintro y before after ⟨call', k', held', hi', -⟩
    rw [hi] at hi'
    cases hi'
  have hsection (hmode : mode = .write)
      (hpost : (Progress.next (n := n) ⟨.locked call.kind.mode x mode, steps⟩ (.shard x scall)
        locked).stage = .changed call.kind.mode x locked.before locked.after) :
      ∃ counted, Balanced (cfg.set i { cfg.shared with db := cfg.shared.db.setShard x shard }
        (.running call (k locked) held)) counted := by
    subst hmode
    refine ⟨counted, h.of_section rfl hlen.1 hlen.2 hnot (fun y b a => ?_)
      (not_dueBy_of_holds hreach (by rw [hi, hg]; exact List.mem_cons_self))⟩
    refine dueBy_iff_of_stage ?_ hnext hpost
    rw [Config.set_status_self, hpost, hg]
    rfl
  cases hkind : call.kind with
  | keyed sections =>
    rw [hkind] at hruns
    cases scall with
    | key key op => exact hsection hruns.2.2 rfl
    | _ => exact hruns.elim
  | walking =>
    rw [hkind] at hruns
    cases scall with
    | key => exact hruns.elim
    | flushdb => exact hruns.elim
    | infoSnapshot | removeExpired | snapshotEntries => exact hsection hruns rfl
    | keys =>
      have hsame : shard = cfg.shared.db.shards x := (congrArg Prod.snd hrun).symm
      have hdb : cfg.shared.db.setShard x shard = cfg.shared.db := by
        rw [hsame]
        simp [setShard]
      refine ⟨counted, h.of_same hdb fun j y before after => ?_⟩
      by_cases hj : j = i
      · subst hj
        refine iff_of_false (not_dueBy_of_stage (cfg.set_status_self ..) hnext ?_) (hnot y before after)
        simp [Progress.next]
      · exact dueBy_set_ne hj
  | flushing =>
    refine absurd ⟨_, held, DbCall.eq_flushdb hkind ▸ hi, ?_⟩ hno
    rw [hg, hkind]
    exact List.mem_cons_of_mem _ List.mem_cons_self

/-- A task that acts while nobody is in `flushdb` keeps the counter balanced. -/
theorem Balanced.of_act {Q : DbAct n → Clocked n → Prop} {s₀ : Clocked n} {i : ι}
    (hreach : Reachable ((dbSystem hash calls ticks).restrict Q) s₀ cfg)
    {counted : Fin (n + 1) → ℕ} (h : Balanced cfg counted) (hno : ¬ InFlush cfg i) {call : DbCall}
    {a : DbAct n} {k : a.Answer → DbM n CallReply} {held : List (DbLock n × LockMode)}
    (hi : cfg.status i = .running call (.act a k) held) {st : Progress n}
    (hf : Follows (stages hash call.kind) call.Ends st (.act a k)) (hg : held = st.stage.guards)
    {answer : a.Answer} {db : ShardedDatabase n}
    (ha : exec cfg.shared.clock a cfg.shared.db = (some answer, db)) :
    ∃ counted, Balanced (cfg.set i { cfg.shared with db := db }
      (.running call (k answer) (a.use.after held))) counted := by
  have hnext := hf.2 answer
  have hallows := hf.1
  change st.Allows hash call.kind a at hallows
  have hstatus := cfg.set_status_self i { cfg.shared with db := db }
    (.running call (k answer) (a.use.after held))
  -- the steps that concern the locks only
  have hquiet (hshard : ∀ x call, a ≠ .shard x call)
      (hcount : ∀ before after, a ≠ .applyLenChange before after)
      (hstore : ∀ count, a ≠ .storeLen count)
      (hpost : ∀ y b a', (st.next a answer).stage ≠ .changed call.kind.mode y b a') :
      ∃ counted, Balanced (cfg.set i { cfg.shared with db := db }
        (.running call (k answer) (a.use.after held))) counted := by
    refine ⟨counted, h.of_same (exec_quiet ha hshard hcount hstore) fun j x before after => ?_⟩
    by_cases hj : j = i
    · subst hj
      refine iff_of_false (not_dueBy_of_stage hstatus hnext hpost) ?_
      rintro ⟨call', k', held', hi', -⟩
      rw [hi] at hi'
      cases hi'
      exact hcount before after rfl
    · exact dueBy_set_ne hj
  cases hallows with
  | enter | lock | now | loadLen | leave | loadLenLocked | unlock =>
    exact hquiet (by simp) (by simp) (by simp) (by simp [Progress.next])
  | storeLen hkind =>
    have hmode : call.kind.mode = .write := by rw [hkind]; rfl
    refine absurd ⟨_, held, DbCall.eq_flushdb hkind ▸ hi, ?_⟩ hno
    rw [hg, ← hmode]
    exact List.mem_singleton.mpr rfl
  | @run mode x scall steps hruns =>
    rcases hrun : scall.run cfg.shared.clock (cfg.shared.db.shards x) with ⟨_ | locked, shard⟩
    · simp only [exec, hrun] at ha
      cases ha
    · simp only [exec, hrun] at ha
      cases ha
      exact h.of_run hreach hno hi hruns hg hrun hnext
  | @count x before after steps =>
    cases ha
    have hheld : held = [(.shard x, .write), (.global, call.kind.mode)] := hg
    have hdue {y : Fin (n + 1)} {b a : ℕ} : DueBy cfg i y b a ↔ y = x ∧ b = before ∧ a = after := by
      refine dueBy_iff_of_stage ?_ hf rfl
      rw [hi, hg]
    have hx : (.shard x, .write) ∈ (cfg.status i).held := by
      rw [hi, hheld]
      exact List.mem_cons_self
    refine ⟨_, h.of_update rfl (hdue.mpr ⟨rfl, rfl, rfl⟩) (fun y b a => ?_)
      (not_dueBy_of_holds hreach hx) fun y b a hd => (hdue.mp hd).1⟩
    have hpost (y : Fin (n + 1)) (b a : ℕ) : (Progress.next (n := n)
        ⟨.changed call.kind.mode x before after, steps⟩ (.applyLenChange before after)
        answer).stage ≠ .changed call.kind.mode y b a := by
      simp [Progress.next]
    exact not_dueBy_of_stage hstatus hnext hpost

omit [DecidableEq ι] in
theorem InFlush.holds {j : ι} (h : InFlush cfg j) : (.global, .write) ∈ (cfg.status j).held := by
  obtain ⟨p, held, hj, hg⟩ := h
  rwa [hj]

/-- A step of a task that is neither in `flushdb` nor about to update the counter, before and
after it, and that leaves the store as it is. -/
theorem CounterInv.of_bystander {i : ι} {s : Clocked n} {status : DbStatus n} (h : CounterInv cfg)
    (hs : s.db = cfg.shared.db) (hdue : ∀ x before after, ¬ DueBy cfg i x before after)
    (hflush : ¬ InFlush cfg i) (hheld : status.held = []) : CounterInv (cfg.set i s status) := by
  have hnil : ((cfg.set i s status).status i).held = [] := by rw [cfg.set_status_self, hheld]
  have hflush' : ¬ InFlush (cfg.set i s status) i := by
    intro hf
    have := hf.holds
    rw [hnil] at this
    cases this
  constructor
  · intro j p held hj hg
    have hji : j ≠ i := by
      rintro rfl
      exact hflush' ⟨p, held, hj, hg⟩
    rw [cfg.set_status_ne hji] at hj
    rw [Config.set_shared, hs]
    exact h.flushing j p held hj hg
  · intro hno
    obtain ⟨counted, hb⟩ := h.balanced fun j hj => by
      have hji : j ≠ i := by
        rintro rfl
        exact hflush hj
      exact hno j ((inFlush_set_ne hji).mpr hj)
    refine ⟨counted, hb.of_same hs fun j x before after => ?_⟩
    by_cases hj : j = i
    · subst hj
      refine iff_of_false (fun hd => ?_) (hdue x before after)
      have := hd.holds
      rw [hnil] at this
      cases this
    · exact dueBy_set_ne hj

/-- An action of a task that is in `flushdb`. -/
theorem CounterInv.of_flush_act {s₀ : Clocked n} {Q : DbAct n → Clocked n → Prop}
    (hreach : Reachable ((dbSystem hash calls ticks).restrict Q) s₀ cfg) (h : CounterInv cfg)
    {i : ι} {a : DbAct n} {k : a.Answer → DbM n CallReply} {held : List (DbLock n × LockMode)}
    (hi : cfg.status i = .running (.op .flushdb) (.act a k) held)
    (hg : (.global, .write) ∈ held) {answer : a.Answer} {db : ShardedDatabase n}
    (ha : exec cfg.shared.clock a cfg.shared.db = (some answer, db)) :
    CounterInv (cfg.set i { cfg.shared with db := db }
      (.running (.op .flushdb) (k answer) (a.use.after held))) := by
  obtain ⟨st, hf, rfl, -⟩ := progress_of_reachable hreach hi
  have hclears : Clears (k answer) db := (h.flushing i _ _ hi hg).of_step hf.1 ha
  have hothers (j : ι) (hj : j ≠ i) : (cfg.status j).held = [] :=
    held_eq_nil hreach (by rw [hi]; exact hg) hj
  have hself := cfg.set_status_self i { cfg.shared with db := db }
    (.running (.op .flushdb) (k answer) (a.use.after st.stage.guards))
  constructor
  · intro j p held hj hg'
    by_cases hji : j = i
    · subst hji
      rw [hself] at hj
      cases hj
      exact hclears
    · have hnil := hothers j hji
      rw [cfg.set_status_ne hji] at hj
      rw [hj] at hnil
      cases hnil
      cases hg'
  · intro hno
    have hnext := hf.2 answer
    have hallows := hf.1
    change st.Allows hash .flushing a at hallows
    have hin (hmem : (.global, .write) ∈ a.use.after st.stage.guards) : False :=
      hno i ⟨_, _, hself, hmem⟩
    cases hallows with
    | enter => simp [Stage.guards] at hg
    | leave =>
      -- the task has left: nothing remains to be done
      cases hk : k answer with
      | act a' k' =>
        rw [hk] at hnext
        have hallows' := hnext.1
        cases hallows'
      | ret r =>
        rw [hk] at hclears
        obtain ⟨_, _, hrun, hcount⟩ := hclears cfg.shared.clock
        cases hrun
        refine ⟨_, balanced_of_stored_eq (fun j x before after hd => ?_) hcount⟩
        have hmem := hd.holds
        by_cases hj : j = i
        · subst hj
          rw [Config.set_status_self] at hmem
          simp [Stage.guards, DbAct.use, LockUse.after] at hmem
        · rw [cfg.set_status_ne hj, hothers j hj] at hmem
          cases hmem
    | lock => exact (hin (List.mem_cons_of_mem _ List.mem_cons_self)).elim
    | unlock => exact (hin (by simp [Stage.guards, DbAct.use, LockUse.after, Kind.mode])).elim
    | now | loadLen | storeLen => exact (hin List.mem_cons_self).elim
    | count hkind => exact absurd rfl hkind
    | run | loadLenLocked =>
      exact (hin (List.mem_cons_of_mem _ List.mem_cons_self)).elim

/-- Every step keeps the invariant. -/
theorem CounterInv.of_step {s₀ : Clocked n} {cfg' : DbConfig ι n} {label : Label ι}
    (hreach : Reachable ((dbSystem hash calls ticks).restrict Careful) s₀ cfg)
    (h : CounterInv cfg)
    (hstep : Step ((dbSystem hash calls ticks).restrict Careful) cfg label cfg') :
    CounterInv cfg' := by
  cases hstep with
  | @start i call hidle hcall =>
    refine h.of_bystander rfl (fun x before after hd => ?_) (fun hf => ?_) rfl
    · have := hd.holds
      rw [hidle] at this
      cases this
    · have := hf.holds
      rw [hidle] at this
      cases this
  | @finish i call r held hi =>
    obtain ⟨st, hf, rfl, -⟩ := progress_of_reachable hreach hi
    have hleft : st.stage = .left := hf.1
    refine h.of_bystander rfl (fun x before after hd => ?_) (fun hf => ?_)
      (System.finished_held ..)
    · have := hd.holds
      rw [hi, Status.held_running, hleft] at this
      cases this
    · have := hf.holds
      rw [hi, Status.held_running, hleft] at this
      cases this
  | @environment s henv =>
    obtain ⟨-, hdb⟩ := henv
    exact ⟨fun j p held hj hg => hdb ▸ h.flushing j p held hj hg, fun hno =>
      (h.balanced hno).imp fun counted hb => hb.of_same hdb fun _ _ _ _ => Iff.rfl⟩
  | @panic i call a k held s hi hadm hdoes =>
    obtain ⟨hcareful, hexec⟩ := hdoes
    obtain ⟨st, hf, rfl, -⟩ := progress_of_reachable hreach hi
    obtain ⟨db, ha, rfl⟩ := does_dbSystem.mp hexec
    have hnone : (exec cfg.shared.clock a cfg.shared.db).1 = none := congrArg Prod.fst ha
    have hsame : db = cfg.shared.db := by
      rw [show db = (exec cfg.shared.clock a cfg.shared.db).2 from (congrArg Prod.snd ha).symm]
      cases a with
      | shard x scall =>
        -- a section that panics has changed nothing
        have hshard := ShardCall.run_of_panic hnone fun key op hop => by
          subst hop
          exact hcareful
        change cfg.shared.db.setShard x (scall.run cfg.shared.clock (cfg.shared.db.shards x)).2 = _
        rw [hshard]
        simp [setShard]
      | _ => cases hnone
    refine h.of_bystander hsame (fun x before after hd => ?_) (fun hflush => ?_) rfl
    · obtain ⟨call', k', held', hi', -⟩ := hd
      rw [hi] at hi'
      cases hi'
      cases hnone
    · obtain ⟨p', held', hi', -⟩ := hflush
      rw [hi] at hi'
      cases hi'
      exact exec_flushing_isSome hf.1 hnone
  | @act i call a k held answer s hi hadm hdoes =>
    obtain ⟨-, hexec⟩ := hdoes
    obtain ⟨st, hf, rfl, -, hstart⟩ := progress_of_reachable hreach hi
    obtain ⟨db, ha, rfl⟩ := does_dbSystem.mp hexec
    by_cases hflush : ∃ j, InFlush cfg j
    · -- during a FLUSHDB no other task acts, since it holds the global guard for writing
      obtain ⟨j, hj⟩ := hflush
      by_cases hji : i = j
      · subst hji
        obtain ⟨p', held', hi', hg⟩ := hj
        rw [hi] at hi'
        cases hi'
        exact h.of_flush_act hreach hi hg ha
      · exact absurd hadm (not_admits_of_writer hreach hj.holds hji hi)
    · have hno : ∀ j, ¬ InFlush cfg j := fun j hj => hflush ⟨j, hj⟩
      obtain ⟨counted, hb⟩ := h.balanced hno
      refine ⟨fun j p held hj hg => ?_, fun _ => hb.of_act hreach (hno i) hi hf rfl ha⟩
      by_cases hji : j = i
      · subst hji
        rw [Config.set_status_self] at hj
        cases hj
        by_cases hst : st.stage = .outside
        · obtain ⟨rfl, hp⟩ := hstart hst
          have hclears := @clears_flushdb _ hash cfg.shared.db
          rw [← hp] at hclears
          exact hclears.of_step hf.1 ha
        · change _ ∈ a.use.after st.stage.guards at hg
          rw [← Progress.guards_next answer hf.1] at hg
          exact absurd ⟨_, _, hi, Progress.global_mem_of_next hf.1 hst hg⟩ (hno j)
      · exact absurd ((inFlush_set_ne hji).mp ⟨p, held, hj, hg⟩) (hno j)

theorem counterInv_of_reachable {c : Clock} {db : ShardedDatabase n} (hdb : db.keyCount = db.stored)
    (h : Reachable ((dbSystem hash calls ticks).restrict Careful) ⟨c, db⟩ cfg) :
    CounterInv cfg := by
  refine h.invariant ⟨?_, fun _ => ⟨_, balanced_of_stored_eq ?_ ?_⟩⟩ fun _ _ _ hreach hinv hstep =>
    hinv.of_step hreach hstep
  · rintro j p held ⟨⟩
  · rintro j x before after ⟨call, k, held, ⟨⟩, -⟩
  · exact hdb

theorem stored_new (n : ℕ) : (ShardedDatabase.new n).stored = 0 := by
  simp [stored, ShardedDatabase.new, Database.new, Database.len]

/-- The counter never drifts, in runs in which no set panics after it has purged entries. -/
theorem counter_of_reachable {c : Clock}
    (h : Reachable ((dbSystem hash calls ticks).restrict Careful) ⟨c, ShardedDatabase.new n⟩ cfg) :
    ((∀ j, ¬ InFlush cfg j) → ∃ counted, Balanced cfg counted) ∧
      (∀ j call before after k held,
        cfg.status j = .running call (.act (.applyLenChange before after) k) held →
          ¬ Underflows (.applyLenChange before after) cfg.shared.db) ∧
      ((∀ j, (cfg.status j).isRunning = false) →
        cfg.shared.db.keyCount = cfg.shared.db.stored) := by
  have hinv := counterInv_of_reachable (stored_new n).symm h
  refine ⟨hinv.balanced, fun j call before after k held hj => ?_, fun hquiet => ?_⟩
  · obtain ⟨st, hf, rfl, -⟩ := progress_of_reachable h hj
    have hallows := hf.1
    change st.Allows hash call.kind _ at hallows
    cases hallows with
    | @count x _ _ steps hkind =>
      have hmem : (.shard x, .write) ∈ (cfg.status j).held := by
        rw [hj]
        exact List.mem_cons_self
      obtain ⟨counted, hb⟩ := hinv.balanced fun i hi => by
        by_cases hij : j = i
        · subst hij
          obtain ⟨p, held, hi', -⟩ := hi
          rw [hj] at hi'
          cases hi'
          exact hkind rfl
        · rw [held_eq_nil h hi.holds hij] at hmem
          cases hmem
      exact hb.not_underflows ⟨call, k, _, hj, List.mem_cons_self⟩
  · have hidle (j : ι) (guard : DbLock n × LockMode) (hg : guard ∈ (cfg.status j).held) : False := by
      have := hquiet j
      cases hs : cfg.status j <;> rw [hs] at this hg <;> cases hg <;> cases this
    obtain ⟨counted, hb⟩ := hinv.balanced fun j hj => hidle j _ hj.holds
    exact hb.stored_eq fun j x before after hd => hidle j _ hd.holds

end Runs

section Sample

theorem careful_key_iff {n : ℕ} {i : Fin (n + 1)} {key : String} {op : KeyOp} {s : Clocked n} :
    ((∃ t ∈ op.deadline s.clock none, instantLimit ≤ t) →
      ∀ p ∈ (s.db.shards i).entries, alive s.clock.instant p.2) ↔ Careful (.shard i (.key key op)) s := by
  refine imp_congr_right fun _ => ?_
  constructor
  · intro h k entry hk
    exact h ⟨k, entry⟩ ((Database.lookup_eq_some_iff _ k entry).mp hk)
  · rintro h ⟨k, entry⟩ hk
    exact h k entry ((Database.lookup_eq_some_iff _ k entry).mpr hk)

instance decidableCareful {n : ℕ} : (a : DbAct n) → (s : Clocked n) → Decidable (Careful a s)
  | .shard _ (.key _ _), _ => decidable_of_iff _ careful_key_iff
  | .shard _ .keys, _ | .shard _ .flushdb, _ | .shard _ .infoSnapshot, _
  | .shard _ .removeExpired, _ | .shard _ (.snapshotEntries _), _ | .acquire .., _ | .release .., _
  | .now, _ | .applyLenChange .., _ | .loadLen, _ | .storeLen _, _ => inferInstanceAs (Decidable True)

/-- A key with a short life, another key, a DEL of both, and INFO. -/
def tidyCalls : Fin 4 → DbCall :=
  ![.op (.set "a" [] (some 5)), .op (.set "b" [1] none), .op (.del ["b", "a"]), .purge .infoSnapshot]

/-- The first key dies, the second SET purges it, and the DEL has removed the second key, but has
not yet taken it from the counter. -/
def tidyTurns : List (DbTurn (Fin 4)) :=
  [.start Four.first 8, .tick ⟨10, 10⟩, .start Four.second 8, .start Four.third 3]

def tidyPlay (turns : List (DbTurn (Fin 4))) : Option (List (Label (Fin 4)) × DbConfig (Fin 4) 0) :=
  dbPlay 0 (fun _ => 0) tidyCalls (fun _ _ _ => True) Careful turns

/-- The update of the counter that a task is about to make. -/
def DbStatus.due {n : ℕ} : DbStatus n → Option (ℕ × ℕ)
  | .running _ (.act (.applyLenChange before after) _) _ => some (before, after)
  | _ => none

theorem DbStatus.running_of_due {n before after : ℕ} {status : DbStatus n}
    (h : DbStatus.due status = some (before, after)) :
    ∃ call k held, status = .running call (.act (.applyLenChange before after) k) held := by
  unfold DbStatus.due at h
  split at h
  · cases h
    exact ⟨_, _, _, rfl⟩
  · cases h

theorem tidy_facts : ((tidyPlay tidyTurns).map fun (_, cfg) => (DbStatus.due (cfg.status 2),
      cfg.shared.db.keyCount, cfg.shared.db.stored)) = some (some (1, 0), 1, 0) ∧
    ((tidyPlay (tidyTurns ++ [.go 2 9])).map fun (_, cfg) =>
      (decide (∀ j, (cfg.status j).isRunning = false), cfg.shared.db.keyCount)) =
        some (true, 0) := by decide +kernel

/-- While the update is due, the counter lags behind; at rest it is right. -/
theorem counter_of_reachable_tidy : ∃ labels due labels' rest,
    tidyPlay tidyTurns = some (labels, due) ∧ tidyPlay (tidyTurns ++ [.go 2 9]) = some (labels', rest) ∧
      due.shared.db.keyCount = 1 ∧ due.shared.db.stored = 0 ∧ (∃ counted, Balanced due counted) ∧
      ¬ Underflows (.applyLenChange 1 0) due.shared.db ∧
      rest.shared.db.keyCount = rest.shared.db.stored := by
  obtain ⟨hdue, hrest⟩ := tidy_facts
  obtain ⟨⟨labels, due⟩, hfirst, hdue⟩ := Option.map_eq_some_iff.mp hdue
  obtain ⟨⟨labels', rest⟩, hsecond, hrest⟩ := Option.map_eq_some_iff.mp hrest
  simp only [Prod.mk.injEq, decide_eq_true_eq] at hdue hrest
  obtain ⟨hstatus, hcount, hstored⟩ := hdue
  have hreach := run_of_dbPlay (fun _ _ _ _ _ => trivial) hfirst
  have hdueFacts := counter_of_reachable ⟨labels, hreach⟩
  have hrestFacts := counter_of_reachable ⟨labels', run_of_dbPlay (fun _ _ _ _ _ => trivial) hsecond⟩
  refine ⟨labels, due, labels', rest, hfirst, hsecond, hcount, hstored, hdueFacts.1 fun j hj => ?_, ?_,
    hrestFacts.2.2 hrest.1⟩
  · obtain ⟨p, held, hj, -⟩ := hj
    obtain ⟨-, -, -, hcall, -⟩ := progress_of_reachable ⟨labels, hreach⟩ hj
    revert hcall
    match j with
    | 0 | 1 | 2 | 3 => exact fun hcall => by cases hcall
  · obtain ⟨call, k, held, hrunning⟩ := DbStatus.running_of_due hstatus
    exact hdueFacts.2.1 2 call 1 0 k held hrunning

end Sample

section Drift

/-- A key with a short life, a key whose deadline no `Instant` can hold, and INFO. -/
def driftCalls : Fin 3 → DbCall :=
  ![.op (.set "a" [] (some 5)), .op (.set "b" [] (some (Duration.fromSecs (UInt64.ofNat u64Max)))),
    .purge .infoSnapshot]

/-- The key of the first task dies, and the second task panics. -/
def driftTurns : List (DbTurn (Fin 3)) :=
  [.start Three.first 8, .tick ⟨10, 10⟩, .start Three.second 3]

def driftPlay (ticks : (Fin 3 → DbStatus 0) → Clock → Clock → Prop) (turns : List (DbTurn (Fin 3))) :
    Option (List (Label (Fin 3)) × DbConfig (Fin 3) 0) :=
  dbPlay 0 (fun _ => 0) driftCalls ticks (fun _ _ => True) turns

theorem drift_facts : ((driftPlay (fun _ _ _ => True) driftTurns).map fun (_, cfg) =>
    (decide (∀ j, (cfg.status j).isRunning = false), cfg.shared.db.keyCount, cfg.shared.db.stored)) =
      some (true, 1, 0) := by decide +kernel

/-- A set that purges its shard and panics leaves the counter too high for ever. -/
theorem not_counter_exact : ¬ ∀ (ι : Type) (_ : DecidableEq ι) (n : ℕ) (hash : String → UInt64)
    (calls : ι → DbCall) (ticks : (ι → DbStatus n) → Clock → Clock → Prop) (c : Clock)
    (cfg : DbConfig ι n), Reachable (dbSystem hash calls ticks) ⟨c, ShardedDatabase.new n⟩ cfg →
      ((∀ j, ¬ InFlush cfg j) → ∃ counted, Balanced cfg counted) ∧
      (∀ j call before after k held,
        cfg.status j = .running call (.act (.applyLenChange before after) k) held →
          ¬ Underflows (.applyLenChange before after) cfg.shared.db) ∧
      ((∀ j, (cfg.status j).isRunning = false) →
        cfg.shared.db.keyCount = cfg.shared.db.stored) := by
  intro hall
  obtain ⟨⟨labels, cfg⟩, hplay, hfacts⟩ := Option.map_eq_some_iff.mp drift_facts
  simp only [Prod.mk.injEq, decide_eq_true_eq] at hfacts
  obtain ⟨hquiet, hcount, hstored⟩ := hfacts
  have hrun := run_of_dbPlay (fun _ _ _ _ _ => trivial) hplay
  have h := (hall _ _ _ _ _ _ _ cfg ⟨labels, hrun.of_restrict⟩).2.2 hquiet
  rw [hcount, hstored] at h
  cases h

end Drift

end RustKV

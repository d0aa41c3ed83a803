import RustKV.LibTasks
import RustKV.ShardedCounts
import RustKV.ShardedStages

/-! Tasks that call the store side by side, one call each. A step is one action of one task: to
take or give back a lock, a section on a shard, an update or a read of the counter. -/
namespace RustKV
open Decimal Tasks Prog

def LockMode.Compatible (mode mode' : LockMode) : Prop := mode = .read ∧ mode' = .read

instance : DecidableRel LockMode.Compatible := fun mode mode' =>
  inferInstanceAs (Decidable (mode = .read ∧ mode' = .read))

theorem LockMode.Compatible.symm (mode mode' : LockMode) (h : mode.Compatible mode') :
    mode'.Compatible mode := ⟨h.2, h.1⟩

def DbAct.use {n : ℕ} : DbAct n → LockUse (DbLock n) LockMode
  | .acquire lock mode => .acquire lock mode
  | .release lock mode => .release lock mode
  | _ => .none

/-- The store, and the time. -/
structure Clocked (n : ℕ) where
  clock : Clock
  db : ShardedDatabase n

section System
variable {ι : Type} {n : ℕ}

abbrev DbStatus (n : ℕ) :=
  Status DbCall (DbAct n) DbAct.Answer (DbLock n) LockMode CallReply

abbrev DbConfig (ι : Type) (n : ℕ) :=
  Config ι DbCall (DbAct n) DbAct.Answer (DbLock n) LockMode (Clocked n) CallReply

def Clocked.exec (a : DbAct n) (s : Clocked n) : Option a.Answer × Clocked n :=
  match ShardedDatabase.exec s.clock a s.db with
  | (answer, db) => (answer, { s with db := db })

/-- The actions as a handler: each task can do each action. -/
def Clocked.handler (_ : ι) (a : DbAct n) (s : Clocked n) : Option (Option a.Answer × Clocked n) :=
  some (Clocked.exec a s)

/-- The task `i` makes the call `calls i`. `ticks` says how the clock may move. -/
def dbSystem (hash : String → UInt64) (calls : ι → DbCall)
    (ticks : (ι → DbStatus n) → Clock → Clock → Prop) :
    System ι DbCall (DbAct n) DbAct.Answer (DbLock n) LockMode (Clocked n) CallReply where
  prog call := call.task hash
  starts i call := call = calls i
  again _ _ := false
  use := DbAct.use
  compatible := LockMode.Compatible
  does _ a s answer s' := Clocked.exec a s = (answer, s')
  environment status s s' := ticks status s.clock s'.clock ∧ s'.db = s.db

variable {hash : String → UInt64} {calls : ι → DbCall}
  {ticks : (ι → DbStatus n) → Clock → Clock → Prop}

theorem handles_dbSystem : Handles (dbSystem hash calls ticks) (Clocked.handler (n := n)) :=
  fun _ _ _ _ _ h => Option.some.inj h

theorem does_dbSystem {i : ι} {a : DbAct n} {s s' : Clocked n} {answer : Option a.Answer} :
    (dbSystem hash calls ticks).does i a s answer s' ↔
      ∃ db, ShardedDatabase.exec s.clock a s.db = (answer, db) ∧ s' = { s with db := db } := by
  change Clocked.exec a s = (answer, s') ↔ _
  rw [Clocked.exec]
  rcases ShardedDatabase.exec s.clock a s.db with ⟨answer', db⟩
  constructor
  · rintro ⟨⟩
    exact ⟨db, rfl, rfl⟩
  · rintro ⟨db', ⟨⟩, rfl⟩
    rfl

theorem Progress.guards_next {kind : Kind} {s : Progress n} {a : DbAct n} (answer : a.Answer)
    (h : s.Allows hash kind a) : (s.next a answer).stage.guards = a.use.after s.stage.guards := by
  cases h with
  | enter | lock | now | loadLen | storeLen | loadLenLocked | count => rfl
  | leave | unlock => simp [Progress.next, Stage.guards, DbAct.use, LockUse.after]
  | run hruns =>
    rename_i call _
    cases kind <;> cases call <;> first | exact hruns.elim | rfl | skip
    all_goals
      simp only [Kind.Runs] at hruns
      simp [Progress.next, Stage.guards, DbAct.use, LockUse.after, hruns]

/-- No operation starts anew. -/
theorem Progress.next_stage_ne {kind : Kind} {s : Progress n} {a : DbAct n} (answer : a.Answer)
    (h : s.Allows hash kind a) : (s.next a answer).stage ≠ .outside := by
  cases h with
  | run hruns =>
    rename_i call _
    cases call <;> simp [Progress.next]
  | _ => simp [Progress.next]

/-- Every operation follows the two-level locking. -/
theorem disciplined_dbSystem : Disciplined (dbSystem (n := n) hash calls ticks)
    (fun call => stages hash call.kind) (fun call => call.Ends) ⟨.outside, []⟩
    (fun s => s.stage.guards) where
  start := rfl
  follows _ call _ := call.follows_task
  guards_next _ _ _ answer h := Progress.guards_next answer h

variable {cfg cfg' : DbConfig ι n} {i j : ι}

/-- Who holds a guard holds the global lock. -/
theorem Stage.global_mem_guards {stage : Stage n} {guard : DbLock n × LockMode}
    (h : guard ∈ stage.guards) : ∃ mode, (.global, mode) ∈ stage.guards := by
  cases stage with
  | outside | left => simp [Stage.guards] at h
  | within global | locked global | changed global => exact ⟨global, by simp [Stage.guards]⟩

section Reached
variable [DecidableEq ι] {s : Clocked n} {Q : DbAct n → Clocked n → Prop}

/-- The progress of a running task. -/
theorem progress_of_reachable
    (h : Reachable ((dbSystem hash calls ticks).restrict Q) s cfg) {call : DbCall}
    {p : DbM n CallReply} {held : List (DbLock n × LockMode)}
    (hi : cfg.status i = .running call p held) :
    ∃ st : Progress n, Follows (stages hash call.kind) call.Ends st p ∧ held = st.stage.guards ∧
      call = calls i ∧ (st.stage = .outside → st = ⟨.outside, []⟩ ∧ p = call.task hash) := by
  obtain ⟨st, hf, hg, hc, hst⟩ := (disciplined_dbSystem.restrict Q).follows_of_reachable h hi
  refine ⟨st, hf, hg, hc, fun houtside => ?_⟩
  rcases hst with hst | ⟨st, a, answer, hallows, rfl⟩
  · exact hst
  · exact absurd houtside (Progress.next_stage_ne answer hallows)

theorem exclusive_dbSystem (h : Reachable ((dbSystem hash calls ticks).restrict Q) s cfg) :
    Exclusive ((dbSystem hash calls ticks).restrict Q) cfg :=
  exclusive_of_reachable LockMode.Compatible.symm h

/-- Beside a writer of the global lock nobody holds a guard. -/
theorem held_eq_nil (h : Reachable ((dbSystem hash calls ticks).restrict Q) s cfg)
    (hj : (.global, .write) ∈ (cfg.status j).held) (hij : i ≠ j) : (cfg.status i).held = [] := by
  cases hs : cfg.status i with
  | idle | done => rfl
  | running call p held =>
    obtain ⟨st, -, rfl, -⟩ := progress_of_reachable h hs
    refine List.eq_nil_iff_forall_not_mem.mpr fun guard hg => ?_
    obtain ⟨mode, hmode⟩ := Stage.global_mem_guards hg
    have := exclusive_dbSystem h j i .global .write mode hij.symm hj (by rw [hs]; exact hmode)
    exact absurd this.1 (by decide)

/-- Beside a writer of the global lock nobody does an action. -/
theorem not_admits_of_writer (h : Reachable ((dbSystem hash calls ticks).restrict Q) s cfg)
    (hj : (.global, .write) ∈ (cfg.status j).held) (hij : i ≠ j) {call : DbCall} {a : DbAct n}
    {k : a.Answer → DbM n CallReply} {held : List (DbLock n × LockMode)}
    (hi : cfg.status i = .running call (.act a k) held) :
    ¬ Admits ((dbSystem hash calls ticks).restrict Q) cfg a.use := by
  intro hadm
  have hnil := held_eq_nil h hj hij
  obtain ⟨st, hf, rfl, -⟩ := progress_of_reachable h hi
  rw [hi, Status.held_running] at hnil
  have hallows := hf.1
  change st.Allows hash call.kind a at hallows
  cases hallows with
  | enter => exact absurd (hadm j .write hj).1 (by decide)
  | _ => simp [Stage.guards] at hnil

end Reached

section Routing
open ShardedDatabase TimedMap
variable {c : Clock} {db db' : ShardedDatabase n}

/-- A section that an operation may run brings no foreign key into the shard. -/
theorem routed_section {kind : Kind} {done : ℕ} {x : Fin (n + 1)} {mode : LockMode}
    {call : ShardCall} (hr : Routed hash db) (hruns : kind.Runs hash done x mode call) :
    Routed hash (db.setShard x (call.run c (db.shards x)).2) := by
  have hpurge {shard : Database} (hp : Purge c.instant (db.shards x).toMap shard.toMap) :
      Routed hash (db.setShard x shard) := hr.purge hp
  cases call with
  | key key op =>
    obtain rfl : shardForKey hash key = x := by
      cases kind with
      | keyed => exact hruns.2.1
      | walking | flushing => exact hruns.elim
    have hs := keyOp_run_spec c (db.shards (shardForKey hash key)) key op
    by_cases hf : op.Fits c (view c.instant (db.shards (shardForKey hash key)).toMap key)
    · obtain ⟨_, -, -, -, -, he⟩ := hs.returns hf
      exact hr.effect he
    · exact hr.purge (hs.panics hf).2
  | keys =>
    refine hr.setShard fun key hkey => Or.inr hkey
  | flushdb =>
    exact hr.setShard fun key hkey => absurd (AList.lookup_empty key) hkey
  | infoSnapshot | removeExpired => exact hpurge (Database.removeExpired_purge c (db.shards x))
  | snapshotEntries now =>
    refine hr.setShard fun key hkey => Or.inr fun hnone => hkey ?_
    refine (Database.lookup_retain _ (db.shards x) key).trans ?_
    rw [hnone]
    rfl

theorem routed_exec {kind : Kind} {st : Progress n} {a : DbAct n} (hr : Routed hash db)
    (hallows : st.Allows hash kind a) : Routed hash (exec c a db).2 := by
  cases hallows with
  | run hruns => exact routed_section hr hruns
  | enter | lock | now | loadLen | storeLen | leave | loadLenLocked | unlock | count => exact hr

/-- In every store that operations side by side have built, each key is in its own shard. -/
theorem routed_of_reachable [DecidableEq ι]
    (h : Reachable (dbSystem (n := n) hash calls ticks) ⟨c, ShardedDatabase.new n⟩ cfg) :
    Routed hash cfg.shared.db := by
  have hallows {cfg : DbConfig ι n} {i : ι} {call : DbCall} {a : DbAct n}
      {k : a.Answer → DbM n CallReply} {held : List (DbLock n × LockMode)}
      (hreach : Reachable (dbSystem (n := n) hash calls ticks) ⟨c, ShardedDatabase.new n⟩ cfg)
      (hi : cfg.status i = .running call (.act a k) held) : ∃ st : Progress n,
        st.Allows hash call.kind a := by
    obtain ⟨st, hf, -⟩ := disciplined_dbSystem.follows_of_reachable hreach hi
    exact ⟨st, hf.1⟩
  refine h.invariant (I := fun cfg => Routed hash cfg.shared.db) ?_
    fun cfg label cfg' hreach hr hstep => ?_
  · exact fun i key hkey => absurd (AList.lookup_empty key) hkey
  · cases hstep with
    | start | finish => exact hr
    | act hi _ hdoes =>
      obtain ⟨st, hst⟩ := hallows hreach hi
      obtain ⟨db, hexec, rfl⟩ := does_dbSystem.mp hdoes
      have h := routed_exec (c := cfg.shared.clock) hr hst
      rwa [hexec] at h
    | panic hi _ hdoes =>
      obtain ⟨st, hst⟩ := hallows hreach hi
      obtain ⟨db, hexec, rfl⟩ := does_dbSystem.mp hdoes
      have h := routed_exec (c := cfg.shared.clock) hr hst
      rwa [hexec] at h
    | environment henv =>
      rw [← henv.2] at hr
      exact hr

end Routing

end System

section Plays
variable {ι : Type} [DecidableEq ι] [Fintype ι] {n : ℕ} {hash : String → UInt64}
  {calls : ι → DbCall} {ticks : (ι → DbStatus n) → Clock → Clock → Prop}

/-- The turns of a play: a task makes some steps, after it has begun or from where it stands, or
the clock moves on. -/
inductive DbTurn (ι : Type) where
  | start (i : ι) (steps : ℕ)
  | go (i : ι) (steps : ℕ)
  | tick (c : Clock)

def DbTurn.moves (calls : ι → DbCall) : DbTurn ι → List (Move ι DbCall ⊕ Clock)
  | .start i steps => .inl (.start i (calls i)) :: List.replicate steps (.inl (.go i))
  | .go i steps => List.replicate steps (.inl (.go i))
  | .tick c => [.inr c]

omit [DecidableEq ι] [Fintype ι] in
theorem DbTurn.starts_of_mem {turn : DbTurn ι} {i : ι} {call : DbCall}
    (h : .inl (.start i call) ∈ turn.moves calls) : call = calls i := by
  have hgo (j : ι) (steps : ℕ) :
      (.inl (.start i call) : Move ι DbCall ⊕ Clock) ∉ List.replicate steps (.inl (.go j)) := by
    intro hmem
    cases (List.mem_replicate.mp hmem).2
  cases turn with
  | start j steps =>
    rcases List.mem_cons.mp h with h | h
    · cases h
      rfl
    · exact absurd h (hgo j steps)
  | go j steps => exact absurd h (hgo j steps)
  | tick c => cases List.mem_singleton.mp h

/-- The clock moves on, while nobody holds the global lock for writing. -/
def Clocked.tick (c : Clock) (status : ι → DbStatus n) (s : Clocked n) : Option (Clocked n) :=
  if s.clock.instant ≤ c.instant ∧ ∀ j, (.global, .write) ∉ (status j).held then
    some { s with clock := c }
  else none

variable {P : DbAct n → Clocked n → Prop}

instance : DecidableRel ((dbSystem (n := n) hash calls ticks).restrict P).compatible :=
  inferInstanceAs (DecidableRel LockMode.Compatible)

variable [∀ a s, Decidable (P a s)] {turns : List (DbTurn ι)} {labels : List (Label ι)}
  {cfg : DbConfig ι n}

/-- Play some turns from a new store, with the actions that `P` admits. -/
def dbPlay (n : ℕ) (hash : String → UInt64) (calls : ι → DbCall)
    (ticks : (ι → DbStatus n) → Clock → Clock → Prop) (P : DbAct n → Clocked n → Prop)
    [∀ a s, Decidable (P a s)] (turns : List (DbTurn ι)) : Option (List (Label ι) × DbConfig ι n) :=
  (watchAround ((dbSystem hash calls ticks).restrict P) (guarded P Clocked.handler) Clocked.tick
    (fun _ _ => ([] : List Unit)) (.initial ⟨⟨0, 0⟩, ShardedDatabase.new n⟩)
    (turns.flatMap (DbTurn.moves calls))).map fun (labels, _, cfg) => (labels, cfg)

theorem run_of_dbPlay (hticks : ∀ status c c', c.instant ≤ c'.instant →
      (∀ j, (.global, .write) ∉ (status j).held) → ticks status c c')
    (h : dbPlay n hash calls ticks P turns = some (labels, cfg)) :
    Run ((dbSystem hash calls ticks).restrict P) (.initial ⟨⟨0, 0⟩, ShardedDatabase.new n⟩) labels
      cfg := by
  obtain ⟨⟨labels', seen, last⟩, hwatch, heq⟩ := Option.map_eq_some_iff.mp h
  cases heq
  refine (observed_of_watchAround (handles_dbSystem.guarded P) ?_ ?_ hwatch).run
  · intro c status s s' hs
    unfold Clocked.tick at hs
    split_ifs at hs with hc
    cases hs
    exact ⟨hticks status _ _ hc.1 hc.2, rfl⟩
  · intro i call hmem
    obtain ⟨turn, -, hturn⟩ := List.mem_flatMap.mp hmem
    exact DbTurn.starts_of_mem hturn

end Plays

end RustKV

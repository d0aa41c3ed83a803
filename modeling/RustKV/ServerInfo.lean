import RustKV.LibContracts
import RustKV.ServerAccess
import RustKV.ServerBlocking

/-! What INFO replies beside other tasks. INFO stores the key count and the memory estimate of
its walk over the shards in the statistics, and then loads them from there again. In between
another task may store its own count, and INFO replies that one. -/
namespace RustKV
open Decimal Tasks Prog ServerM

/-- What is observed of a task: a round begins, a walk under the exclusive lock is over, and a
published field gets a value or is read. -/
inductive InfoEvent where
  | began
  | walked (keyCount memory : ℕ)
  | stored (field : StatField) (value : UInt64)
  | loaded (field : StatField)
  deriving DecidableEq

/-- The fields that a walk of INFO publishes. -/
def StatField.published (field : StatField) : Bool :=
  field = .keyCount || field = .memoryEstimateBytes

section Events
variable {ι : Type} {n : ℕ}

def StatAct.events (stats : ServerStats) : StatAct → List InfoEvent
  | .store field value => if field.published then [.stored field value] else []
  | .fetchAdd field count =>
    if field.published then [.stored field (stats.counters field + count)] else []
  | .load field => if field.published then [.loaded field] else []
  | _ => []

/-- The estimate of `info_snapshot`, for all shards at once. -/
def ShardedDatabase.memoryEstimateBytes (db : ShardedDatabase n) : ℕ :=
  ∑ x, (db.shards x).memoryEstimateBytes

def ServerAct.events (kv : Kv n) : ServerAct n → List InfoEvent
  | .kv (.db (.release .global .write)) => [.walked kv.db.keyCount kv.db.memoryEstimateBytes]
  | .kv (.stat a) => a.events kv.stats
  | _ => []

def infoEvents (cfg : ServerConfig ι n) : Label ι → List (ι × InfoEvent)
  | .start i => [(i, .began)]
  | .act i =>
    match cfg.status i with
    | .running _ (.act a _) _ => (a.events cfg.shared.kv).map (i, ·)
    | _ => []
  | .panic _ | .finish _ | .environment => []

/-- What a round has done so far: the outcome of its walk, and the values that it has stored in
published fields and not loaded yet. One is `overwritten` if another task stored another value. -/
structure RoundLog where
  walked : Option (ℕ × ℕ)
  waiting : StatField → Option UInt64
  overwritten : Bool

namespace RoundLog

def empty : RoundLog := ⟨none, fun _ => none, false⟩

/-- An event of the task itself. -/
def own (log : RoundLog) : InfoEvent → RoundLog
  | .began => empty
  | .walked keyCount memory => { log with walked := some (keyCount, memory) }
  | .stored field value => { log with waiting := Function.update log.waiting field (some value) }
  | .loaded field => { log with waiting := Function.update log.waiting field none }

/-- An event of another task. -/
def other (log : RoundLog) : InfoEvent → RoundLog
  | .stored field value =>
    { log with overwritten := log.overwritten || (log.waiting field).any (· != value) }
  | _ => log

end RoundLog

variable [DecidableEq ι]

/-- The round of the task `i`, as far as it has got. -/
def roundLog (i : ι) (seen : List (ι × InfoEvent)) : RoundLog :=
  seen.foldl (fun log e => if e.1 = i then log.own e.2 else log.other e.2) .empty

theorem roundLog_own (i : ι) (seen : List (ι × InfoEvent)) (events : List InfoEvent) :
    roundLog i (seen ++ events.map (i, ·)) = events.foldl RoundLog.own (roundLog i seen) := by
  simp [roundLog, List.foldl_map]

theorem roundLog_other {i j : ι} (h : j ≠ i) (seen : List (ι × InfoEvent))
    (events : List InfoEvent) :
    roundLog i (seen ++ events.map (j, ·)) = events.foldl RoundLog.other (roundLog i seen) := by
  simp [roundLog, List.foldl_map, h]

end Events

section Actions
variable {ι : Type} [DecidableEq ι] {n : ℕ} {s s' : ServerState ι n} {i : ι}

theorem ServerState.Does.of_db {a : DbAct n} {answer : Option a.Answer}
    (h : s.Does i (.kv (.db a)) answer s') :
    ShardedDatabase.exec s.clock a s.kv.db = (answer, s'.kv.db) ∧ s'.kv.stats = s.kv.stats := by
  cases h with
  | exec hexec =>
    cases hexec
    exact ⟨rfl, rfl⟩

theorem ServerState.Does.of_stat {a : StatAct} {answer : Option a.Answer}
    (h : s.Does i (.kv (.stat a)) answer s') :
    answer = some (s.kv.stats.exec s.clock a).1 ∧ s'.kv.stats = (s.kv.stats.exec s.clock a).2 ∧
      s'.kv.db = s.kv.db := by
  cases h with
  | exec hexec =>
    cases hexec
    exact ⟨rfl, rfl, rfl⟩

theorem ServerState.Does.stats {a : ServerAct n} {answer : Option a.Answer}
    (h : s.Does i a answer s') (hno : ∀ b, a ≠ .kv (.stat b)) : s'.kv.stats = s.kv.stats := by
  cases h with
  | exec hexec =>
    cases a with
    | kv b =>
      cases b with
      | db b =>
        cases hexec
        rfl
      | stat b => exact absurd rfl (hno b)
    | file | acquire | release | engineFile | setEngineFile | writeValue | panic =>
      cases hexec
      rfl
  | fileError | sendError => rfl

/-- A published field keeps its value, or the event tells the new one. -/
theorem ServerState.Does.counters {a : ServerAct n} {answer : Option a.Answer}
    (h : s.Does i a answer s') {field : StatField} (hf : field.published) :
    s'.kv.stats.counters field = s.kv.stats.counters field ∨
      a.events s.kv = [.stored field (s'.kv.stats.counters field)] := by
  by_cases hstat : ∃ b, a = .kv (.stat b)
  · obtain ⟨b, rfl⟩ := hstat
    rw [h.of_stat.2.1]
    cases b with
    | store field' value | fetchAdd field' value =>
      by_cases hfield : field = field'
      · subst hfield
        right
        simp [ServerAct.events, StatAct.events, hf, ServerStats.exec]
      · left
        simp [ServerStats.exec, Function.update_of_ne hfield]
    | load | loadAofEnabled | elapsedSecs | fixed => exact .inl rfl
  · rw [h.stats fun b hb => hstat ⟨b, hb⟩]
    exact .inl rfl

/-- A panic leaves the statistics as they are. -/
theorem ServerState.Does.stats_of_panic {a : ServerAct n} (h : s.Does i a none s') :
    s'.kv.stats = s.kv.stats := by
  refine h.stats fun b hb => ?_
  subst hb
  exact absurd h.of_stat.1 nofun

end Actions

section Contracts
variable {ι : Type} [DecidableEq ι] {n : ℕ}

/-- The reply has the key count and the memory estimate of the walk of its round. -/
def Reports (settings : Settings) (log : RoundLog) (value : RespValue) : Prop :=
  ∃ keyCount memory stats, log.walked = some (keyCount, memory) ∧
    value = infoResponse (settings.toJson stats) ∧ stats.keyCount = UInt64.ofNat keyCount ∧
    stats.memoryEstimateBytes = UInt64.ofNat memory

def Round.IsInfo : Round → Prop
  | .client q => parseCommand q.frame = some (.ok .info)
  | _ => False

/-- Beside a task nobody changes the database that it has locked for writing, and a value that
waits to be loaded stays, unless it is overwritten. -/
structure Beside (held : List (ServerLock n × LockMode)) (v v' : ServerState ι n × RoundLog) : Prop where
  db : (.db .global, .write) ∈ held → v'.1.kv.db = v.1.kv.db
  walked : v'.2.walked = v.2.walked
  waiting : v'.2.waiting = v.2.waiting
  intact : v'.2.overwritten = false → v.2.overwritten = false
  kept : v'.2.overwritten = false → ∀ field : StatField, field.published →
    ∀ value, v.2.waiting field = some value → v.1.kv.stats.counters field = value →
      v'.1.kv.stats.counters field = value

/-- What a task sees is the server and its round. A round of INFO owes a true reply. -/
def infoContract (settings : Settings) (i : ι) (round : Round) :
    Contract (ServerAct n) ServerAct.Answer (List (ServerLock n × LockMode))
      (ServerState ι n × RoundLog) where
  after a held := a.use.after held
  duty a _ v := round.IsInfo → v.2.overwritten = false →
    ∀ value, a = .writeValue value → Reports settings v.2 value
  does a _ v answer v' :=
    v.1.Does i a (some answer) v'.1 ∧ v'.2 = (a.events v.1.kv).foldl RoundLog.own v.2
  rely := Beside
  rely_refl _ _ := ⟨fun _ => rfl, rfl, rfl, id, fun _ _ _ _ _ h => h⟩
  rely_trans h h' := by
    refine ⟨fun hg => (h'.db hg).trans (h.db hg), h'.walked.trans h.walked,
      h'.waiting.trans h.waiting, fun ho => h.intact (h'.intact ho), ?_⟩
    intro ho field hf value hw hv
    exact h'.kept ho field hf value (h.waiting ▸ hw) (h.kept (h'.intact ho) field hf value hw hv)

section Others
variable {s s' : ServerState ι n} {log : RoundLog} {events : List InfoEvent}
  {held : List (ServerLock n × LockMode)}

theorem RoundLog.foldl_other (events : List InfoEvent) (log : RoundLog) :
    (events.foldl other log).walked = log.walked ∧ (events.foldl other log).waiting = log.waiting ∧
      ((events.foldl other log).overwritten = false → log.overwritten = false) := by
  induction events generalizing log with
  | nil => exact ⟨rfl, rfl, id⟩
  | cons event events ih =>
    obtain ⟨hwalked, hwaiting, hintact⟩ := ih (log.other event)
    cases event with
    | stored field value =>
      refine ⟨hwalked, hwaiting, fun h => ?_⟩
      have := hintact h
      simp only [other, Bool.or_eq_false_iff] at this
      exact this.1
    | began | walked | loaded => exact ⟨hwalked, hwaiting, hintact⟩

omit [DecidableEq ι] in
/-- A step of another task that changes a published field shows it. -/
theorem beside_of_events (events : List InfoEvent)
    (hdb : (.db .global, .write) ∈ held → s'.kv.db = s.kv.db)
    (hcounters : ∀ field : StatField, field.published →
      s'.kv.stats.counters field = s.kv.stats.counters field ∨
        events = [.stored field (s'.kv.stats.counters field)]) :
    Beside held (s, log) (s', events.foldl RoundLog.other log) := by
  obtain ⟨hwalked, hwaiting, hintact⟩ := RoundLog.foldl_other events log
  refine ⟨hdb, hwalked, hwaiting, hintact, fun ho field hf value hw hv => ?_⟩
  rcases hcounters field hf with hsame | rfl
  · exact hsame.trans hv
  · change log.waiting field = some value at hw
    simp only [List.foldl_cons, List.foldl_nil, RoundLog.other, hw, Option.any_some,
      Bool.or_eq_false_iff, bne_eq_false_iff_eq] at ho
    exact ho.2.symm

theorem beside_of_step {settings : Settings} {roles : ι → Role} {stalls : ServerStatus n → Prop}
    {s₀ : ServerState ι n} {cfg cfg' : ServerConfig ι n} {label : Label ι} {i : ι}
    (h : Reachable (serverSystem settings roles stalls) s₀ cfg)
    (hstep : Step (serverSystem settings roles stalls) cfg label cfg') (hl : label.task ≠ some i)
    (seen : List (ι × InfoEvent)) :
    Beside (cfg.status i).held (cfg.shared, roundLog i seen)
      (cfg'.shared, roundLog i (seen ++ infoEvents cfg label)) := by
  have hdb := fun hheld => db_eq_of_writer h hheld hstep hl
  have hne {j : ι} (hj : some j ≠ some i) : j ≠ i := fun hji => hj (congrArg some hji)
  cases hstep with
  | @start j =>
    have hlog := roundLog_other (hne hl) seen [.began]
    change Beside _ _ (_, roundLog i (seen ++ [.began].map (j, ·)))
    rw [hlog]
    exact beside_of_events _ hdb fun _ _ => .inl rfl
  | @act j round a k held answer s' hj _ hdoes =>
    have hevents : infoEvents cfg (.act j) = (a.events cfg.shared.kv).map (j, ·) := by
      simp only [infoEvents, hj]
    rw [hevents, roundLog_other (hne hl)]
    exact beside_of_events _ hdb fun field hf => hdoes.counters hf
  | panic hj _ hdoes =>
    rw [infoEvents, List.append_nil]
    exact beside_of_events [] hdb fun field _ => .inl (by
      rw [Config.set_shared, ServerState.Does.stats_of_panic hdoes])
  | finish =>
    rw [infoEvents, List.append_nil]
    exact beside_of_events [] hdb fun _ _ => .inl rfl
  | environment henv =>
    obtain ⟨-, hs, -⟩ := henv
    rw [infoEvents, List.append_nil]
    exact beside_of_events [] hdb fun _ _ => .inl (by rw [hs])

end Others

section Programs
variable {settings : Settings} {i : ι} {round : Round} {held : List (ServerLock n × LockMode)}
  {v v' : ServerState ι n × RoundLog} {walked : Option (ℕ × ℕ)} {known : StatField → Option UInt64}
  {found : Prop}

/-- What the round has walked and stored; and if none of its fields is overwritten, what they hold
and what else it has found. -/
structure Knows (walked : Option (ℕ × ℕ)) (known : StatField → Option UInt64) (found : Prop)
    (v : ServerState ι n × RoundLog) : Prop where
  walked : v.2.walked = walked
  waiting : v.2.waiting = known
  holds : v.2.overwritten = false → ∀ field : StatField, field.published →
    ∀ value, known field = some value → v.1.kv.stats.counters field = value
  found : v.2.overwritten = false → found

omit [DecidableEq ι] in
theorem Knows.stable (h : Knows walked known found v) (hv : Beside held v v') :
    Knows walked known found v' := by
  refine ⟨hv.walked.trans h.walked, hv.waiting.trans h.waiting, fun ho field hf value hk => ?_,
    fun ho => h.found (hv.intact ho)⟩
  exact hv.kept ho field hf value (h.waiting ▸ hk) (h.holds (hv.intact ho) field hf value hk)

omit [DecidableEq ι] in
theorem Knows.mono {found' : Prop} (h : Knows walked known found v) (hfound : found → found') :
    Knows walked known found' v := ⟨h.walked, h.waiting, h.holds, fun ho => hfound (h.found ho)⟩

/-- An action without an event. -/
theorem Knows.quiet (h : Knows walked known found v) {a : ServerAct n} {answer : a.Answer}
    (hevents : a.events v.1.kv = [])
    (hdoes : (infoContract settings i round).does a held v answer v') :
    Knows walked known found v' := by
  obtain ⟨hdoes, hlog⟩ := hdoes
  rw [hevents, List.foldl_nil] at hlog
  refine ⟨hlog ▸ h.walked, hlog ▸ h.waiting, fun ho field hf value hk => ?_, hlog ▸ h.found⟩
  rw [hlog] at ho
  rcases hdoes.counters hf with hsame | hstored
  · exact hsame.trans (h.holds ho field hf value hk)
  · rw [hevents] at hstored
    cases hstored

theorem Knows.stored (h : Knows walked known found v) {field : StatField} {value : UInt64}
    (hf : field.published) {answer : Unit}
    (hdoes : (infoContract settings i round).does (.kv (.stat (.store field value))) held v answer v') :
    Knows walked (Function.update known field (some value)) found v' := by
  obtain ⟨hdoes, hlog⟩ := hdoes
  simp only [ServerAct.events, StatAct.events, hf, if_true, List.foldl_cons, List.foldl_nil,
    RoundLog.own] at hlog
  rw [← h.waiting]
  refine ⟨hlog ▸ h.walked, by rw [hlog], fun ho field' hf' value' hk => ?_, hlog ▸ h.found⟩
  rw [hlog] at ho
  rw [hdoes.of_stat.2.1]
  by_cases hfield : field' = field
  · subst hfield
    simpa [ServerStats.exec] using hk
  · rw [Function.update_of_ne hfield, h.waiting] at hk
    simp only [ServerStats.exec, Function.update_of_ne hfield]
    exact h.holds ho field' hf' value' hk

theorem Knows.loaded (h : Knows walked known found v) {field : StatField} (hf : field.published)
    {answer : UInt64}
    (hdoes : (infoContract settings i round).does (.kv (.stat (.load field))) held v answer v') :
    Knows walked (Function.update known field none)
      (found ∧ ∀ value, known field = some value → answer = value) v' := by
  obtain ⟨hdoes, hlog⟩ := hdoes
  simp only [ServerAct.events, StatAct.events, hf, if_true, List.foldl_cons, List.foldl_nil,
    RoundLog.own] at hlog
  have hstats : v'.1.kv.stats = v.1.kv.stats := hdoes.of_stat.2.1
  have hanswer : answer = v.1.kv.stats.counters field := Option.some.inj hdoes.of_stat.1
  refine ⟨hlog ▸ h.walked, by rw [hlog, h.waiting], fun ho field' hf' value' hk => ?_,
    fun ho => ⟨h.found (by rwa [hlog] at ho), fun value hk => ?_⟩⟩
  · rw [hlog] at ho
    by_cases hfield : field' = field
    · subst hfield
      simp at hk
    · rw [Function.update_of_ne hfield] at hk
      rw [hstats]
      exact h.holds ho field' hf' value' hk
  · rw [hlog] at ho
    exact hanswer.trans (h.holds ho field hf value hk)

section Walk
open ShardedDatabase DbM

/-- The contract, for an operation of the store. -/
abbrev walkContract (settings : Settings) (i : ι) (round : Round) :
    Contract (DbAct n) DbAct.Answer (List (ServerLock n × LockMode))
      (ServerState ι n × RoundLog) :=
  (infoContract settings i round).comap (fun a => ServerAct.kv (.db a)) (fun _ answer => answer)

/-- An action of the operation that has no event. -/
theorem keeps_quiet {α : Type} {Q : α → List (ServerLock n × LockMode) → ServerState ι n × RoundLog → Prop}
    {a : DbAct n} {f : a.Answer → DbM n α} (h : Knows walked known found v)
    (hevents : ∀ kv, (ServerAct.kv (.db a)).events kv = [])
    (hf : ∀ answer v₁ v₂, Beside held v v₁ →
      exec v₁.1.clock a v₁.1.kv.db = (some answer, v₂.1.kv.db) → Knows walked known found v₂ →
      (walkContract settings i round).Keeps Q (f answer)
        ((ServerAct.kv (.db a)).use.after held) v₂) :
    (walkContract settings i round).Keeps Q (perform a >>= f) held v := by
  refine Contract.keeps_perform_bind fun v₁ hv => ⟨fun _ _ value ha => ?_, ?_⟩
  · cases ha
  rintro answer v₂ ⟨_, hdoes, rfl⟩
  exact hf _ v₁ v₂ hv hdoes.1.of_db.1 ((h.stable hv).quiet (hevents _) hdoes)

/-- The walk has reached these shards, and this is their memory. -/
structure Walking (done : List (Fin (n + 1))) (acc : ℕ × ℕ)
    (held : List (ServerLock n × LockMode)) (v : ServerState ι n × RoundLog) : Prop where
  held : held = [(.db .global, .write)]
  memory : acc.2 = (done.map fun x => (v.1.kv.db.shards x).memoryEstimateBytes).sum
  knows : Knows none (fun _ => none) True v

theorem keeps_walk_shard {xs done rest : List (Fin (n + 1))} {x : Fin (n + 1)} {acc : ℕ × ℕ}
    (hxs : xs = done ++ x :: rest) (hnodup : xs.Nodup) (h : Walking done acc held v) :
    (walkContract settings i round).Keeps (Walking (done ++ [x])) (do
      acquire (.shard x) .write
      let locked ← DbM.shard x .infoSnapshot
      applyLenChange locked.before locked.after
      release (.shard x) .write
      let bytes : ℕ := locked.result
      return (acc.1 + locked.expired, acc.2 + bytes) : DbM n (ℕ × ℕ)) held v := by
  obtain ⟨rfl, hmemory, hknows⟩ := h
  have hnot : x ∉ done := by
    rw [hxs, List.nodup_append] at hnodup
    intro hx
    exact hnodup.2.2 x hx x List.mem_cons_self rfl
  have hglobal {mode : LockMode} : ((.db .global : ServerLock n), LockMode.write) ∈
      [(.db (.shard x), mode), (.db .global, .write)] := by simp
  refine keeps_quiet hknows (fun _ => rfl) fun _ v₁ v₂ hv₁ hexec₁ hknows => ?_
  refine keeps_quiet hknows (fun _ => rfl) fun locked v₃ v₄ hv₃ hexec₂ hknows => ?_
  refine keeps_quiet hknows (fun _ => rfl) fun _ v₅ v₆ hv₅ hexec₃ hknows => ?_
  refine keeps_quiet hknows (fun _ => rfl) fun _ v₇ v₈ hv₇ hexec₄ hknows => ?_
  refine Contract.keeps_pure fun v₉ hv₉ => ?_
  refine ⟨by simp [ServerAct.use, KvAct.use, DbAct.use, LockUse.map, LockUse.after], ?_, hknows.stable hv₉⟩
  -- nobody else has changed the database meanwhile
  have hdb₁ := hv₁.db List.mem_cons_self
  have hdb₃ := hv₃.db hglobal
  have hdb₅ := hv₅.db hglobal
  have hdb₇ := hv₇.db hglobal
  have hdb₉ := hv₉.db (by simp [ServerAct.use, KvAct.use, DbAct.use, LockUse.map, LockUse.after])
  have hacquire : v₂.1.kv.db = v₁.1.kv.db := (congrArg Prod.snd hexec₁).symm
  have hcount : v₆.1.kv.db.shards = v₅.1.kv.db.shards := (congrArg (·.2.shards) hexec₃).symm
  have hrelease : v₈.1.kv.db = v₇.1.kv.db := (congrArg Prod.snd hexec₄).symm
  obtain ⟨hlocked, hsection⟩ := Prod.mk.inj hexec₂
  let shard := ((v₃.1.kv.db.shards x).removeExpired v₃.1.clock).2
  have hresult : (locked.result : ℕ) = shard.memoryEstimateBytes := by
    rw [← Option.some.inj hlocked]
    rfl
  have hshards : v₉.1.kv.db.shards = Function.update v.1.kv.db.shards x shard := by
    rw [hdb₉, hrelease, hdb₇, hcount, hdb₅, ← hsection, ← hdb₁, ← hacquire, ← hdb₃]
    rfl
  have hdone : (done.map fun y => (v₉.1.kv.db.shards y).memoryEstimateBytes) =
      done.map fun y => (v.1.kv.db.shards y).memoryEstimateBytes := by
    refine List.map_congr_left fun y hy => ?_
    have hyx : y ≠ x := fun hyx => hnot (hyx ▸ hy)
    rw [hshards, Function.update_of_ne hyx]
  rw [List.map_append, List.sum_append, hdone, List.map_singleton, List.sum_singleton, hshards,
    Function.update_self, ← hmemory]
  exact congrArg (acc.2 + ·) hresult

theorem keeps_infoSnapshot (h : Knows none (fun _ => none) True v) :
    (infoContract settings i round).Keeps (fun info held v => held = [] ∧
        Knows (some (info.keyCount, info.memoryEstimateBytes)) (fun _ => none) True v)
      (ServerM.onDb infoSnapshot) [] v := by
  have hguards : ([(.db .global, .write)] : List (ServerLock n × LockMode)).erase
      (.db .global, .write) = [] := List.erase_cons_head ..
  rw [onDb_eq_lift]
  refine Contract.keeps_lift (R := DbAct.Answer) ?_
  refine keeps_quiet h (fun _ => rfl) fun _ v₁ v₂ _ _ hknows => ?_
  refine Contract.keeps_bind (P := Walking (List.finRange (n + 1))) ?_ ?_
  · refine Contract.keeps_forEach ?_ ?_ ⟨rfl, rfl, hknows⟩
    · intro done x rest acc held v hxs hwalking
      exact keeps_walk_shard hxs (List.nodup_finRange _) hwalking
    · rintro done acc held v v' ⟨rfl, hmemory, hknows⟩ hv
      refine ⟨rfl, ?_, hknows.stable hv⟩
      rw [hv.db List.mem_cons_self]
      exact hmemory
  · rintro ⟨expired, memory⟩ held v ⟨rfl, hmemory, hknows⟩
    refine keeps_quiet hknows (fun _ => rfl) fun keyCount v₁ v₂ hv₁ hexec hknows => ?_
    refine Contract.keeps_perform_bind fun v₃ hv₃ => ⟨fun _ _ value ha => ?_, ?_⟩
    · cases ha
    rintro _ v₄ ⟨_, ⟨hdoes, hlog⟩, rfl⟩
    refine Contract.keeps_pure fun v₅ hv₅ => ⟨hguards, ?_⟩
    refine Knows.stable ⟨?_, ?_, fun ho field hf value hk => ?_, fun _ => trivial⟩ hv₅
    · -- the lock is given back: this is the moment of the snapshot
      have hdb₁ := hv₁.db List.mem_cons_self
      have hload : v₂.1.kv.db = v₁.1.kv.db := (congrArg Prod.snd hexec).symm
      have hdb : v₃.1.kv.db = v.1.kv.db := (hv₃.db List.mem_cons_self).trans (hload.trans hdb₁)
      have hcount : keyCount = v₃.1.kv.db.keyCount := by
        rw [hdb, ← hdb₁]
        exact (Option.some.inj (congrArg Prod.fst hexec)).symm
      have hbytes : memory = v₃.1.kv.db.memoryEstimateBytes := by
        rw [hdb, ShardedDatabase.memoryEstimateBytes, Fin.sum_univ_def]
        exact hmemory
      rw [hlog, hcount, hbytes]
      rfl
    · rw [hlog]
      exact (hknows.stable hv₃).waiting
    · cases hk

end Walk

section Statistics
variable {α : Type} {Q : α → List (ServerLock n × LockMode) → ServerState ι n × RoundLog → Prop}

/-- A part of INFO that leaves the published fields as they are. -/
theorem keeps_stat {a : StatAct} {f : a.Answer → KvM n α} (h : Knows walked known found v)
    (hevents : ∀ stats, a.events stats = [])
    (hf : ∀ answer v, Knows walked known found v →
      (infoContract settings i round).Keeps Q (onKv (f answer)) held v) :
    (infoContract settings i round).Keeps Q (onKv (perform (KvAct.stat a) >>= f)) held v := by
  refine Contract.keeps_perform_bind fun v₁ hv => ⟨fun _ _ value ha => ?_, ?_⟩
  · cases ha
  · intro answer v₂ hdoes
    have hquiet : (ServerAct.kv (.stat a)).events v₁.1.kv = [] := hevents _
    exact hf _ v₂ ((h.stable hv).quiet hquiet hdoes)

theorem keeps_store {field : StatField} {value : UInt64} {f : Unit → KvM n α}
    (h : Knows walked known found v) (hfield : field.published)
    (hf : ∀ v, Knows walked (Function.update known field (some value)) found v →
      (infoContract settings i round).Keeps Q (onKv (f ())) held v) :
    (infoContract settings i round).Keeps Q (onKv (KvM.store field value >>= f)) held v := by
  refine Contract.keeps_perform_bind fun v₁ hv => ⟨fun _ _ value ha => ?_, ?_⟩
  · cases ha
  · intro answer v₂ hdoes
    exact hf v₂ ((h.stable hv).stored hfield hdoes)

theorem keeps_load {field : StatField} {f : UInt64 → KvM n α} (h : Knows walked known found v)
    (hfield : field.published)
    (hf : ∀ answer v, Knows walked (Function.update known field none)
        (found ∧ ∀ value, known field = some value → answer = value) v →
      (infoContract settings i round).Keeps Q (onKv (f answer)) held v) :
    (infoContract settings i round).Keeps Q (onKv (KvM.load field >>= f)) held v := by
  refine Contract.keeps_perform_bind fun v₁ hv => ⟨fun _ _ value ha => ?_, ?_⟩
  · cases ha
  · intro answer v₂ hdoes
    exact hf answer v₂ ((h.stable hv).loaded hfield hdoes)

/-- What INFO reads back. -/
theorem keeps_snapshot {keyCount memory : UInt64} (h : Knows walked known found v)
    (hkeys : known .keyCount = some keyCount)
    (hmemory : known .memoryEstimateBytes = some memory) :
    (infoContract settings i round).Keeps (fun stats held' v => held' = held ∧ ∃ known,
        Knows walked known (stats.keyCount = keyCount ∧ stats.memoryEstimateBytes = memory) v)
      (onKv ServerStats.snapshot) held v := by
  refine keeps_stat (a := .load .uptimeSeconds) h (fun _ => rfl) fun stored v h => ?_
  refine keeps_stat (a := .elapsedSecs) h (fun _ => rfl) fun elapsed v h => ?_
  refine keeps_stat (a := .store .uptimeSeconds _) h (fun _ => rfl) fun _ v h => ?_
  refine keeps_stat (a := .fixed) h (fun _ => rfl) ?_
  rintro ⟨serverVersion, role, addr⟩ v h
  refine keeps_load h rfl fun memory' v h => ?_
  refine keeps_stat (a := .loadAofEnabled) h (fun _ => rfl) fun aofEnabled v h => ?_
  refine keeps_stat (a := .load .maxFrameSize) h (fun _ => rfl) fun maxFrameSize v h => ?_
  refine keeps_stat (a := .load .totalCommands) h (fun _ => rfl) fun totalCommands v h => ?_
  refine keeps_stat (a := .load .connectedClients) h (fun _ => rfl) fun connectedClients v h => ?_
  refine keeps_load h rfl fun keyCount' v h => ?_
  refine keeps_stat (a := .load .expiredKeys) h (fun _ => rfl) fun expiredKeys v h => ?_
  refine keeps_stat (a := .load .getCount) h (fun _ => rfl) fun getCount v h => ?_
  refine keeps_stat (a := .load .setCount) h (fun _ => rfl) fun setCount v h => ?_
  refine keeps_stat (a := .load .delCount) h (fun _ => rfl) fun delCount v h => ?_
  refine Contract.keeps_pure fun v' hv => ⟨rfl, _, (h.stable hv).mono ?_⟩
  rintro ⟨⟨-, hm⟩, hk⟩
  exact ⟨hk keyCount (by simpa using hkeys), hm memory hmemory⟩

/-- INFO replies what it has found in its walk. -/
theorem keeps_info (h : Knows none (fun _ => none) True v) :
    (infoContract settings i round).Keeps (fun response _ v => ∃ walked known,
        Knows walked known (∃ keyCount memory stats, walked = some (keyCount, memory) ∧
          response = infoResponse (settings.toJson stats) ∧
          stats.keyCount = UInt64.ofNat keyCount ∧
          stats.memoryEstimateBytes = UInt64.ofNat memory) v)
      (onKv (executeCommand settings.hash settings.toJson .info)) [] v := by
  have hexecute : executeCommand (n := n) settings.hash settings.toJson .info =
      runCommand settings.hash settings.toJson .info := if_pos rfl
  rw [hexecute, runCommand, onKv_bind]
  refine Contract.keeps_bind (keeps_infoSnapshot h) ?_
  rintro info _ v ⟨rfl, h⟩
  refine keeps_store h rfl fun v h => keeps_store h rfl fun v h => ?_
  refine keeps_stat (a := .fetchAdd .expiredKeys _) h (fun _ => rfl) fun _ v h => ?_
  rw [onKv_bind]
  refine Contract.keeps_bind (keeps_snapshot h ((Function.update_of_ne (by decide) ..).trans
    (Function.update_self ..)) (Function.update_self ..)) ?_
  rintro stats _ v ⟨rfl, known, h⟩
  refine Contract.keeps_pure fun v' hv => ⟨_, known, (h.stable hv).mono ?_⟩
  rintro ⟨hkeys, hmemory⟩
  exact ⟨_, _, stats, rfl, rfl, hkeys, hmemory⟩

end Statistics

end Programs

/-- Every round meets its contract. -/
theorem keeps_round {settings : Settings} {i : ι} {round : Round} {v : ServerState ι n × RoundLog}
    (hv : v.2 = .empty) : (infoContract settings i round).Keeps (fun _ _ _ => True)
      (round.prog settings) [] v := by
  by_cases hinfo : round.IsInfo
  · cases round with
    | rewrite | ttl => exact hinfo.elim
    | client q =>
      have hprog : (Round.client q).prog settings = (do
          let response ← onKv (executeCommand settings.hash settings.toJson .info)
          ServerM.writeValue response : ServerM n _) := by
        have hparse : parseCommand q.frame = some (.ok .info) := hinfo
        simp only [Round.prog, handleFrame, hparse, handleCommand]
        rfl
      rw [hprog]
      have hknows : Knows none (fun _ => none) True v :=
        ⟨by rw [hv]; rfl, by rw [hv]; rfl, fun _ _ _ _ hk => (by cases hk), fun _ => trivial⟩
      refine Contract.keeps_bind (keeps_info hknows) ?_
      rintro response held v ⟨walked, known, hknows⟩ v' hv
      refine ⟨fun _ ho value hvalue => ?_, fun _ _ _ _ _ => trivial⟩
      cases hvalue
      obtain ⟨keyCount, memory, stats, hwalked, hvalue, hkeys, hmemory⟩ := (hknows.stable hv).found ho
      exact ⟨keyCount, memory, stats, (hknows.stable hv).walked.trans hwalked, hvalue, hkeys, hmemory⟩
  · exact Contract.keeps_of_free (fun _ _ _ h => absurd h hinfo) (fun _ _ _ => trivial) _

end Contracts

section Runs
variable {ι : Type} [DecidableEq ι] {n : ℕ} {settings : Settings} {roles : ι → Role}
  {stalls : ServerStatus n → Prop} {s : ServerState ι n} {cfg : ServerConfig ι n}
  {labels : List (Label ι)} {seen : List (ι × InfoEvent)}

theorem allKeep_info
    (h : Observed (serverSystem settings roles stalls) infoEvents (.initial s) labels seen cfg) :
    AllKeep (infoContract settings) (fun _ _ _ _ _ => True) (fun i s seen => (s, roundLog i seen))
      cfg seen := by
  refine Observed.allKeep (fun _ _ _ _ => rfl) ?_ ?_ ?_ h
  · intro i round cfg seen labels _ _ _
    refine keeps_round ?_
    exact roundLog_own i seen [.began]
  · intro i round a k held answer s' cfg seen labels _ _ hi _ hdoes
    refine ⟨hdoes, ?_⟩
    simp only [infoEvents, hi]
    exact roundLog_own ..
  · intro i round p held cfg cfg' label seen labels hrun _ hi hstep hl
    have hbeside := beside_of_step ⟨labels, hrun.run⟩ hstep hl seen
    rwa [hi] at hbeside

end Runs

section Sample

/-- No log, and of the statistics only the key count is written. -/
def infoSettings : Settings where
  hash := fun _ => 0
  toJson := fun stats => .ok (toString stats.keyCount.toNat)
  aofPath := none
  rewriteMinSize := 1

abbrev infoSystem := serverSystem (n := 0) (ι := Fin 2) infoSettings (fun _ => .client) fun _ => True

instance : DecidableRel infoSystem.compatible := inferInstanceAs (DecidableRel LockMode.Compatible)

def infoRequest : Request := .ofArgs [asBytes "INFO"] (by unfold Loadable; decide +kernel)

/-- What happens from the start of the server on. -/
def observeInfo (moves : List (Move (Fin 2) Round)) :
    Option (List (Label (Fin 2)) × List (Fin 2 × InfoEvent) × ServerConfig (Fin 2) 0) :=
  watch infoSystem ServerState.handler infoEvents (.initial (.fresh (Fin 2) 0 samplePath)) moves

/-- The request that a client handles, and the bytes that it is about to reply. -/
def ServerStatus.reply : ServerStatus 0 → Option (Bytes × Bytes)
  | .running (.client q) (.act (.writeValue (.bulkString bytes)) _) _ => some (q.frame, bytes)
  | _ => none

theorem ServerStatus.running_of_reply {status : ServerStatus 0} {frame bytes : Bytes}
    (h : ServerStatus.reply status = some (frame, bytes)) : ∃ q k held, q.frame = frame ∧
      status = .running (.client q) (.act (.writeValue (.bulkString bytes)) k) held := by
  unfold ServerStatus.reply at h
  split at h
  · cases h
    exact ⟨_, _, _, rfl, rfl⟩
  · cases h

def pingRequest : Request := .ofArgs [asBytes "PING"] (by unfold Loadable; decide +kernel)

/-- An INFO up to its reply. Another client has set a key before, and is answered a PING while the
INFO has stored its counts and not yet loaded them. -/
def infoBesideMoves : List (Move (Fin 2) Round) :=
  .start secondTask (.client setRequest) :: List.replicate 13 (.go secondTask) ++
    .start firstTask (.client infoRequest) :: List.replicate 14 (.go firstTask) ++
      .start secondTask (.client pingRequest) :: List.replicate 3 (.go secondTask) ++
        List.replicate 10 (.go firstTask)

/-- An INFO that has stored its counts when another client sets a key. -/
def overtakenMoves : List (Move (Fin 2) Round) :=
  .start firstTask (.client infoRequest) :: List.replicate 14 (.go firstTask) ++
    .start secondTask (.client setRequest) :: List.replicate 10 (.go secondTask) ++
      List.replicate 10 (.go firstTask)

theorem parseCommand_infoRequest : parseCommand infoRequest.frame = some (.ok .info) := by
  decide +kernel

theorem info_beside_facts : (observeInfo infoBesideMoves).any (fun o =>
    decide (ServerStatus.reply (o.2.2.status 0) = some (infoRequest.frame, asBytes "1")) &&
      decide ((roundLog 0 o.2.1).walked.map Prod.fst = some 1) &&
      !(roundLog 0 o.2.1).overwritten) = true := by decide +kernel

theorem overtaken_facts : (observeInfo overtakenMoves).any (fun o =>
    decide (ServerStatus.reply (o.2.2.status 0) = some (infoRequest.frame, asBytes "1")) &&
      decide ((roundLog 0 o.2.1).walked = some (0, 0))) = true := by decide +kernel

/-- What moves of the sample lead to is a run. -/
theorem observed_observeInfo {moves : List (Move (Fin 2) Round)} {labels : List (Label (Fin 2))}
    {seen : List (Fin 2 × InfoEvent)} {cfg : ServerConfig (Fin 2) 0}
    (hclients : ∀ i round, Move.start i round ∈ moves → ∃ q, round = .client q)
    (h : observeInfo moves = some (labels, seen, cfg)) :
    Observed infoSystem infoEvents (.initial (.fresh (Fin 2) 0 samplePath)) labels seen cfg := by
  refine observed_of_watch handles_serverSystem (fun i round hm => ?_) h
  obtain ⟨q, rfl⟩ := hclients i round hm
  trivial

end Sample

end RustKV

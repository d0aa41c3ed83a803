import RustKV.ServerSignal

/-! The counter of the connected clients. Whatever the tasks do side by side, it is the number of the
clients that are between the two ends of their tasks. A task that panics in between stays counted. -/
namespace RustKV
open Decimal Tasks Prog LifeM

section Rounds
variable {n : ℕ} {settings : Settings} {α : Type}

/-- The actions that leave the counter of the clients alone. -/
def KvAct.Uncounted : KvAct n → Prop
  | .stat (.fetchAdd field _) | .stat (.store field _) => field ≠ .connectedClients
  | _ => True

def ServerAct.Uncounted : ServerAct n → Prop
  | .kv a => a.Uncounted
  | _ => True

theorem KvAct.Uncounted.counters {a : KvAct n} (ha : a.Uncounted) (c : Clock) (kv : Kv n) :
    (Kv.exec c a kv).2.stats.counters .connectedClients = kv.stats.counters .connectedClients := by
  cases a with
  | db a => rfl
  | stat a =>
    cases a with
    | fetchAdd field count => exact Function.update_of_ne (Ne.symm ha) ..
    | store field value => exact Function.update_of_ne (Ne.symm ha) ..
    | load | loadAofEnabled | elapsedSecs | fixed => rfl

theorem ServerAct.Uncounted.counters {a : ServerAct n} (ha : a.Uncounted) (c : Clock)
    (fault : Option Fault) (w : World n) :
    (World.exec c fault a w).2.kv.stats.counters .connectedClients =
      w.kv.stats.counters .connectedClients := by
  cases a with
  | kv a => exact KvAct.Uncounted.counters ha c w.kv
  | _ => rfl

theorem ServerAct.OnFiles.uncounted {a : ServerAct n} (h : a.OnFiles) : a.Uncounted := by
  unfold ServerAct.OnFiles at h
  split at h
  · trivial
  · trivial
  · trivial
  · trivial
  · exact h.elim

theorem only_uncounted_store {field : StatField} {value : UInt64} (h : field ≠ .connectedClients) :
    (KvM.store field value : KvM n Unit).Only KvAct.Uncounted := only_perform h

theorem only_uncounted_fetchAdd {field : StatField} {count : UInt64} (h : field ≠ .connectedClients) :
    (KvM.fetchAdd field count : KvM n Unit).Only KvAct.Uncounted := only_perform h

theorem only_uncounted_kvOnDb (p : DbM n α) : (KvM.onDb p).Only KvAct.Uncounted := by
  induction p with
  | ret x => trivial
  | act a k ih => exact ⟨trivial, ih⟩

theorem only_uncounted_count {β : Type} (outcome : DbOutcome β) :
    (count outcome : KvM n Unit).Only KvAct.Uncounted :=
  only_bind (only_uncounted_store (by decide)) fun _ => only_uncounted_fetchAdd (by decide)

theorem only_uncounted_snapshot : (ServerStats.snapshot : KvM n _).Only KvAct.Uncounted := by
  have hload (field : StatField) : (KvM.load field : KvM n _).Only KvAct.Uncounted :=
    only_perform trivial
  refine only_bind (hload _) fun _ => only_bind (only_perform trivial) fun _ => ?_
  -- the only field that a snapshot writes
  refine only_bind (only_uncounted_store (by decide)) fun _ => only_bind (only_perform trivial) fun _ => ?_
  refine only_bind (hload _) fun _ => only_bind (only_perform trivial) fun _ => ?_
  refine only_bind (hload _) fun _ => only_bind (hload _) fun _ => only_bind (hload _) fun _ => ?_
  refine only_bind (hload _) fun _ => only_bind (hload _) fun _ => only_bind (hload _) fun _ => ?_
  exact only_bind (hload _) fun _ => only_bind (hload _) fun _ => only_pure _

/-- No command changes the counter of the clients. -/
theorem only_uncounted_runCommand {hash : String → UInt64}
    {toJson : ServerStatsSnapshot → KvResult String} (cmd : Command) :
    (runCommand (n := n) hash toJson cmd).Only KvAct.Uncounted := by
  have hcount {β : Type} {field : StatField} (hfield : field ≠ .connectedClients)
      (outcome : DbOutcome β) (reply : RespValue) :
      (do KvM.fetchAdd field 1; count outcome; return reply : KvM n RespValue).Only
        KvAct.Uncounted :=
    only_bind (only_uncounted_fetchAdd hfield) fun _ =>
      only_bind (only_uncounted_count outcome) fun _ => only_pure reply
  cases cmd with
  | ping | unknown => exact only_pure _
  | set | setPxAt | get | del =>
    exact only_bind (only_uncounted_kvOnDb _) fun outcome => hcount (by decide) outcome _
  | exists' | expire | expireAt | ttl =>
    refine only_bind (only_uncounted_kvOnDb _) fun outcome => ?_
    exact only_bind (only_uncounted_count outcome) fun _ => only_pure _
  | keys => exact only_bind (only_uncounted_kvOnDb _) fun _ => only_pure _
  | flushDb =>
    refine only_bind (only_uncounted_kvOnDb _) fun _ => ?_
    exact only_bind (only_uncounted_store (by decide)) fun _ => only_pure _
  | info =>
    refine only_bind (only_uncounted_kvOnDb _) fun _ => ?_
    refine only_bind (only_uncounted_store (by decide)) fun _ => ?_
    refine only_bind (only_uncounted_store (by decide)) fun _ => ?_
    refine only_bind (only_uncounted_fetchAdd (by decide)) fun _ => ?_
    exact only_bind only_uncounted_snapshot fun _ => only_pure _

theorem only_uncounted_executeCommand {hash : String → UInt64}
    {toJson : ServerStatsSnapshot → KvResult String} (cmd : Command) :
    (executeCommand (n := n) hash toJson cmd).Only KvAct.Uncounted := by
  unfold executeCommand
  split_ifs
  · exact only_uncounted_runCommand cmd
  · exact only_bind (only_uncounted_fetchAdd (by decide)) fun _ => only_uncounted_runCommand cmd

theorem only_uncounted_onKv {p : KvM n α} (hp : p.Only KvAct.Uncounted) :
    (ServerM.onKv p).Only ServerAct.Uncounted := only_lift hp fun _ h => h

theorem only_uncounted_file {p : ServerM n α} (hp : p.Only ServerAct.OnFiles) :
    p.Only ServerAct.Uncounted := hp.mono fun _ => ServerAct.OnFiles.uncounted

theorem only_uncounted_handleWrite {hash : String → UInt64}
    {toJson : ServerStatsSnapshot → KvResult String} (cmd : Command) :
    (handleWrite (n := n) hash toJson cmd).Only ServerAct.Uncounted := by
  have hreply (value : RespValue) : (do
      let written ← ServerM.writeValue value
      ServerM.release .engine .write
      ServerM.release .rewriteBarrier .read
      return written : ServerM n _).Only ServerAct.Uncounted :=
    only_bind (only_perform trivial) fun _ => only_bind (only_perform trivial) fun _ =>
      only_bind (only_perform trivial) fun _ => only_pure _
  refine only_bind (only_perform trivial) fun _ => only_bind (only_perform trivial) fun _ => ?_
  refine only_bind (only_uncounted_file (only_append cmd)) fun result => ?_
  cases result with
  | error error => exact hreply _
  | ok =>
    refine only_bind (only_uncounted_onKv (only_uncounted_executeCommand cmd)) fun response => ?_
    exact hreply response

theorem only_uncounted_handleFrame {hash : String → UInt64}
    {toJson : ServerStatsSnapshot → KvResult String} {aof : Bool} (frame : Bytes) :
    (handleFrame (n := n) hash toJson aof frame).Only ServerAct.Uncounted := by
  unfold handleFrame
  split
  · exact ⟨trivial, fun r => r.elim⟩
  · exact only_perform trivial
  · unfold handleCommand
    split_ifs
    · exact only_uncounted_handleWrite _
    · refine only_bind (only_uncounted_onKv (only_uncounted_executeCommand _)) fun _ => ?_
      exact only_perform trivial

theorem only_uncounted_maybeRewriteAof (path : Path) (rewriteMinSize : ℕ) :
    (maybeRewriteAof (n := n) path rewriteMinSize).Only ServerAct.Uncounted := by
  refine only_bind (only_perform trivial) fun _ => ?_
  refine only_bind (only_uncounted_file (only_fileSize path)) fun size => ?_
  refine only_bind (only_perform trivial) fun _ => ?_
  cases size with
  | error => exact only_pure _
  | ok currentSize =>
    dsimp only
    split_ifs
    · exact only_pure _
    · refine only_bind (only_perform trivial) fun _ => ?_
      refine only_bind (only_uncounted_onKv (only_uncounted_kvOnDb _)) fun snapshot => ?_
      refine only_bind (only_perform trivial) fun _ => ?_
      refine only_bind (only_uncounted_file (only_rewrite path snapshot)) fun _ => ?_
      refine only_bind (only_perform trivial) fun _ => ?_
      exact only_bind (only_perform trivial) fun _ => only_pure _

/-- No round changes the counter of the clients. -/
theorem Round.only_uncounted (round : Round) :
    (round.prog (n := n) settings).Only ServerAct.Uncounted := by
  cases round with
  | client q => exact only_uncounted_handleFrame q.frame
  | rewrite =>
    unfold Round.prog
    dsimp only
    split
    · exact only_uncounted_maybeRewriteAof _ _
    · exact only_pure _
  | ttl =>
    refine only_bind (only_bind (only_uncounted_onKv (only_uncounted_kvOnDb _)) fun removed => ?_)
      fun _ => only_pure _
    refine only_bind (only_uncounted_onKv (only_uncounted_fetchAdd (by decide))) fun _ => ?_
    exact only_uncounted_onKv (only_uncounted_store (by decide))

theorem only_uncounted_lastFlush : (lastFlush : ServerM n _).Only ServerAct.Uncounted := by
  refine only_bind (only_perform trivial) fun _ => ?_
  refine only_bind (only_uncounted_file only_flush) fun _ => ?_
  exact only_bind (only_perform trivial) fun _ => only_pure _

end Rounds

section Tally
variable {ι : Type} {n : ℕ} {settings : Settings}

/-- The actions of the workers and of the server's own task. -/
def LifeAct.Uncounted : LoopAct (ServerAct n) (LifeAct ι n) → Prop
  | .inner a | .outer (.own a) => a.Uncounted
  | .outer .incrConnectedClients | .outer .decrConnectedClients => False
  | _ => True

/-- The actions of a client that is counted. -/
def LifeAct.Serves : LoopAct (ServerAct n) (LifeAct ι n) → Prop
  | .inner a => a.Uncounted
  | .outer (.select _) | .outer .borrow | .outer .park => True
  | _ => False

theorem LifeAct.Serves.uncounted {a : LoopAct (ServerAct n) (LifeAct ι n)} (h : LifeAct.Serves a) :
    LifeAct.Uncounted a := by
  cases a with
  | inner a => exact h
  | outer o =>
    cases o with
    | select | borrow | park => trivial
    | begin | spawn | incrConnectedClients | decrConnectedClients | joinNext | join | abortAll | own =>
      exact h.elim

/-- A client is not counted yet, or it is counted, or it is counted no more. -/
inductive Tally where
  | before
  | counted
  | after

def Tally.Allows : Tally → LoopAct (ServerAct n) (LifeAct ι n) → Prop
  | .before, a => a = .outer .begin ∨ a = .outer .incrConnectedClients
  | .counted, a => LifeAct.Serves a ∨ a = .outer .decrConnectedClients
  | .after, _ => False

def Tally.next : Tally → (a : LoopAct (ServerAct n) (LifeAct ι n)) →
    LoopAct.Answer ServerAct.Answer LifeAct.Answer a → Tally
  | .before, .outer .incrConnectedClients, _ => .counted
  | .counted, .outer .decrConnectedClients, _ => .after
  | stage, _, _ => stage

/-- A client is counted before it is served, and no more afterwards. -/
def tally : Protocol (LoopAct (ServerAct n) (LifeAct ι n))
    (LoopAct.Answer ServerAct.Answer LifeAct.Answer) Tally := ⟨Tally.Allows, Tally.next⟩

theorem Tally.next_of_serves {a : LoopAct (ServerAct n) (LifeAct ι n)} (h : LifeAct.Serves a)
    (r : LoopAct.Answer ServerAct.Answer LifeAct.Answer a) : Tally.counted.next a r = .counted := by
  cases a with
  | inner a => rfl
  | outer o =>
    cases o with
    | decrConnectedClients => exact h.elim
    | _ => rfl

theorem only_serves_handleRead (item : IoResult (Option Request)) :
    (handleRead settings item : LifeM ι n _).Only LifeAct.Serves := by
  rcases item with error | _ | q
  · exact only_pure _
  · exact only_pure _
  · have hcall : (call ((Round.client q).prog settings) : LifeM ι n _).Only LifeAct.Serves :=
      only_lift (Round.only_uncounted _) fun _ h => h
    refine only_bind hcall fun result => ?_
    cases result with
    | error => exact only_pure _
    | ok => exact only_pure _

theorem follows_clientTask (rounds : ℕ) :
    (clientTask settings rounds : LifeM ι n _).Follows tally (fun stage _ => stage = .after) .before := by
  have hserves : (handleClient settings rounds : LifeM ι n _).Only LifeAct.Serves :=
    only_selectLoop trivial trivial trivial only_serves_handleRead rounds
  refine follows_perform_bind (.inl rfl) fun _ => follows_perform_bind (.inr rfl) fun _ => ?_
  refine follows_bind (hserves.follows_yields (yields_true _) (fun _ ha => .inl ha)
    fun _ r ha => Tally.next_of_serves ha r) ?_
  intro stage result h
  rw [h.1]
  exact follows_perform_bind (.inr rfl) fun _ => rfl

theorem only_uncounted_mainTask (rounds : ℕ) :
    (mainTask settings rounds : LifeM ι n _).Only LifeAct.Uncounted := by
  have hworkers : (startWorkers settings : LifeM ι n _).Only LifeAct.Uncounted := by
    refine only_bind (only_perform trivial) fun _ => ?_
    split_ifs
    · exact only_perform trivial
    · exact only_pure _
  have haccept : (acceptLoop rounds : LifeM ι n _).Only LifeAct.Uncounted := by
    refine only_selectLoop trivial trivial trivial (fun item => ?_) rounds
    cases item with
    | error => exact only_pure _
    | ok i => exact only_bind (only_perform trivial) fun _ => only_pure _
  have hflush : (own lastFlush : LifeM ι n _).Only LifeAct.Uncounted :=
    only_lift only_uncounted_lastFlush fun _ h => h
  refine only_bind hworkers fun _ => only_bind haccept fun accepted => ?_
  cases accepted with
  | error => exact only_bind (only_perform trivial) fun _ => only_pure _
  | ok =>
    refine only_bind (only_joinClients trivial trivial rounds) fun _ => ?_
    refine only_bind (only_perform trivial) fun _ => ?_
    split_ifs
    · exact only_bind (only_perform trivial) fun _ => hflush
    · exact only_pure _

/-- The server's own task and the workers leave the counter alone. -/
theorem LifeCall.only_uncounted {c : LifeCall ι} (hc : ∀ i, c.task ≠ .client i) :
    (c.prog settings : LifeM ι n _).Only LifeAct.Uncounted := by
  obtain ⟨task, rounds⟩ := c
  cases task with
  | main => exact only_uncounted_mainTask rounds
  | worker w =>
    refine only_bind (only_perform trivial) fun _ => ?_
    refine only_selectLoop trivial trivial trivial (fun item => ?_) rounds
    have hcall : (call (w.round.prog settings) : LifeM ι n _).Only LifeAct.Uncounted :=
      only_lift (Round.only_uncounted _) fun _ h => h
    exact only_bind hcall fun _ => only_pure _
  | client i => exact absurd rfl (hc i)

end Tally

section Counter
variable {ι : Type} [DecidableEq ι] {n : ℕ} {settings : Settings} {s s' : LifeState ι n}
  {t : LifeTask ι} {a : LoopAct (ServerAct n) (LifeAct ι n)}
  {answer : Option (LoopAct.Answer ServerAct.Answer LifeAct.Answer a)}

omit [DecidableEq ι] in
theorem ServerState.connectedClients_set (server : ServerState (LifeTask ι) n) (value : UInt64) :
    (server.setConnectedClients value).connectedClients = value := by
  change Function.update server.kv.stats.counters .connectedClients value .connectedClients = value
  exact Function.update_self ..

namespace LifeState

/-- The counter of the clients. -/
def connectedClients (s : LifeState ι n) : UInt64 := s.server.connectedClients

theorem connectedClients_of_serverDoes {a : ServerAct n} {answer : Option a.Answer}
    {server : ServerState (LifeTask ι) n} (ha : a.Uncounted) (h : s.server.Does t a answer server) :
    server.connectedClients = s.connectedClients := by
  cases h with
  | @exec _ fault _ w hexec =>
    have hw : (World.exec s.server.clock fault a (s.server.world t)).2 = w := by rw [hexec]
    rw [← hw]
    exact ha.counters s.server.clock fault (s.server.world t)
  | fileError | sendError => rfl

theorem Reads.connectedClients {source : Source} (h : s.Reads t source s') :
    s'.connectedClients = s.connectedClients := by
  cases h with
  | none | some => rfl

/-- What the others do leaves the counter alone. -/
theorem Does.connectedClients (ha : LifeAct.Uncounted a) (h : s.Does t a answer s') :
    s'.connectedClients = s.connectedClients := by
  cases h with
  | call hserver | own hserver => exact connectedClients_of_serverDoes ha hserver
  | changed hreads => exact hreads.connectedClients
  | closed hreads => exact hreads.connectedClients
  | incrConnectedClients | decrConnectedClients => exact ha.elim
  | _ => rfl

theorem Passes.connectedClients {status : LifeTask ι → LifeStatus ι n} (h : s.Passes status s') :
    s'.connectedClients = s.connectedClients := by
  cases h with
  | server hlater hserver =>
    change ServerState.connectedClients _ = _
    rw [hserver]
    rfl
  | send | close | ended => rfl

/-- A step of a client: the counter stays, or the client is counted, or it is counted no more. -/
theorem Does.tally {stage : Tally} (ha : stage.Allows a) (h : s.Does t a answer s') :
    (s'.connectedClients = s.connectedClients ∧ ∀ r, answer = some r → stage.next a r = stage) ∨
    (stage = .before ∧ answer.isSome ∧ s'.connectedClients = s.connectedClients + 1 ∧
      ∀ r, stage.next a r = .counted) ∨
    (stage = .counted ∧ answer.isSome ∧ (s.connectedClients ≠ 0 →
      s'.connectedClients = s.connectedClients - 1) ∧ ∀ r, stage.next a r = .after) := by
  cases stage with
  | before =>
    rcases ha with rfl | rfl
    · have hbegin : LifeAct.Uncounted (.outer .begin : LoopAct (ServerAct n) (LifeAct ι n)) := trivial
      exact .inl ⟨h.connectedClients hbegin, fun _ _ => rfl⟩
    · cases h with
      | incrConnectedClients =>
        refine .inr (.inl ⟨rfl, rfl, ?_, fun _ => rfl⟩)
        exact s.server.connectedClients_set _
      | aborted _ hawaits => exact hawaits.elim
  | counted =>
    rcases ha with ha | rfl
    · exact .inl ⟨h.connectedClients ha.uncounted, fun r _ => Tally.next_of_serves ha r⟩
    · cases h with
      | decrConnectedClients =>
        refine .inr (.inr ⟨rfl, rfl, fun hzero => ?_, fun _ => rfl⟩)
        have hcounter : s.server.connectedClients ≠ 0 := hzero
        change ServerState.connectedClients (if _ then _ else _) = _
        rw [if_neg hcounter]
        exact s.server.connectedClients_set _
      | aborted _ hawaits => exact hawaits.elim
  | after => exact ha.elim

end LifeState

/-- Whether a client is counted. The status of a task that panicked does not tell. -/
def LifeStatus.counted : LifeStatus ι n → Option Bool
  | .idle | .done (some _) | .running _ (.ret _) _ | .running _ (.act (.outer .begin) _) _
  | .running _ (.act (.outer .incrConnectedClients) _) _ => some false
  | .done none => none
  | .running .. => some true

/-- The status of a client that is counted or not. -/
def LifeStatus.Tallies (status : LifeStatus ι n) (counted : Prop) : Prop :=
  match status with
  | .idle | .done (some _) => ¬ counted
  | .running _ p _ => ∃ stage, p.Follows tally (fun stage _ => stage = .after) stage ∧
      (counted ↔ stage = .counted)
  | .done none => True

omit [DecidableEq ι] in
theorem LifeStatus.Tallies.counted {status : LifeStatus ι n} {counted : Prop} {b : Bool}
    (h : LifeStatus.Tallies status counted) (hb : LifeStatus.counted status = some b) :
    counted ↔ b = true := by
  cases status with
  | idle =>
    cases hb
    exact iff_of_false h Bool.false_ne_true
  | done result =>
    cases result with
    | none => cases hb
    | some =>
      cases hb
      exact iff_of_false h Bool.false_ne_true
  | running c p held =>
    obtain ⟨stage, hfollows, hiff⟩ := h
    rw [hiff]
    cases p with
    | ret x =>
      cases hb
      have hafter : stage = .after := hfollows
      simp [hafter]
    | act a k =>
      have hallows : stage.Allows a := hfollows.1
      cases stage with
      | before =>
        rcases hallows with rfl | rfl
        · cases hb
          simp
        · cases hb
          simp
      | counted =>
        rcases hallows with hserves | rfl
        · have hcounted : LifeStatus.counted (.running c (.act a k) held) = some true := by
            cases a with
            | inner => rfl
            | outer o =>
              cases o with
              | select | borrow | park => rfl
              | begin | spawn | incrConnectedClients | decrConnectedClients | joinNext | join
              | abortAll | own => exact hserves.elim
          rw [hcounted] at hb
          cases hb
          simp
        · cases hb
          simp
      | after => exact hallows.elim

/-- The clients that have started, in their order. -/
def arrivals (labels : List (Label (LifeTask ι))) : List ι :=
  labels.filterMap fun
    | .start (.client i) => some i
    | _ => none

variable {start : ℕ} {labels : List (Label (LifeTask ι))} {counted : Finset ι}
  {cfg cfg' : LifeConfig ι n} {label : Label (LifeTask ι)}

omit [DecidableEq ι] in
theorem mem_arrivals_append {i : ι} (h : i ∈ arrivals labels) : i ∈ arrivals (labels ++ [label]) := by
  unfold arrivals
  rw [List.filterMap_append]
  exact List.mem_append_left _ h

/-- The clients in `counted` are counted. -/
structure Counting (start : ℕ) (labels : List (Label (LifeTask ι))) (counted : Finset ι)
    (cfg : LifeConfig ι n) : Prop where
  count : cfg.shared.connectedClients.toNat = start + counted.card
  arrived : ∀ i ∈ counted, i ∈ arrivals labels
  started : ∀ i, cfg.status (.client i) ≠ .idle → i ∈ arrivals labels
  clients : ∀ i, LifeStatus.Tallies (cfg.status (.client i)) (i ∈ counted)
  others : ∀ t c p held, (∀ i, t ≠ .client i) → cfg.status t = .running c p held →
    p.Only LifeAct.Uncounted

/-- A client that is not at rest has started. -/
theorem started_of_step (hstep : Step (lifeSystem settings) cfg label cfg')
    (h : ∀ i, cfg.status (.client i) ≠ .idle → i ∈ arrivals labels) (i : ι)
    (hi : cfg'.status (.client i) ≠ .idle) : i ∈ arrivals (labels ++ [label]) := by
  have hrunning {c p held} (hcfg : cfg.status (.client i) = .running c p held) :
      i ∈ arrivals (labels ++ [label]) := by
    apply mem_arrivals_append
    apply h i
    rw [hcfg]
    simp
  rcases hstep.status_cases (.client i) with hs | ⟨c, rfl, -⟩ | ⟨c, a, k, held, r, -, hcfg, -⟩ |
    ⟨c, a, k, held, -, hcfg, -⟩ | ⟨c, b, held, -, hcfg, -⟩
  · rw [hs] at hi
    exact mem_arrivals_append (h i hi)
  · unfold arrivals
    rw [List.filterMap_append]
    exact List.mem_append_right _ (List.mem_singleton_self i)
  · exact hrunning hcfg
  · exact hrunning hcfg
  · exact hrunning hcfg

theorem others_of_step (hstep : Step (lifeSystem settings) cfg label cfg')
    (h : ∀ t c p held, (∀ i, t ≠ .client i) → cfg.status t = .running c p held →
      p.Only LifeAct.Uncounted) (t : LifeTask ι) (c : LifeCall ι) (p : LifeM ι n (IoResult Unit))
    (held : List (ServerLock n × LockMode)) (ht : ∀ i, t ≠ .client i)
    (hp : cfg'.status t = .running c p held) : p.Only LifeAct.Uncounted := by
  rcases hstep.status_cases t with hs | ⟨c', -, -, hstarts, hs⟩ | ⟨c', a, k, held', r, -, hcfg, -, -, hs⟩ |
    ⟨c', a, k, held', -, -, -, hs⟩ | ⟨c', b, held', -, -, hs⟩ <;> rw [hs] at hp
  · exact h t c p held ht hp
  · cases hp
    refine LifeCall.only_uncounted fun i hi => ht i ?_
    exact hstarts.1.symm.trans hi
  · cases hp
    exact (h t _ _ _ ht hcfg).2 r
  · cases hp
  · cases hp

theorem tallies_set {s : LifeState ι n} {status : LifeStatus ι n} {counted' : Finset ι}
    (h : ∀ j, t ≠ .client j → LifeStatus.Tallies (cfg.status (.client j)) (j ∈ counted'))
    (hstatus : ∀ i, t = .client i → LifeStatus.Tallies status (i ∈ counted')) (j : ι) :
    LifeStatus.Tallies ((cfg.set t s status).status (.client j)) (j ∈ counted') := by
  by_cases hj : .client j = t
  · subst hj
    rw [Config.set_status_self]
    exact hstatus j rfl
  · rw [Config.set_status_ne _ hj]
    exact h j fun heq => hj heq.symm

/-- Of every step: the counter and the clients that it counts go together. -/
theorem Counting.step (h : Counting start labels counted cfg)
    (hstep : Step (lifeSystem settings) cfg label cfg')
    (hfew : start + (arrivals (labels ++ [label])).length < 2^64) :
    ∃ counted', Counting start (labels ++ [label]) counted' cfg' := by
  have hstarted := started_of_step hstep h.started
  have hothers := others_of_step hstep h.others
  have hsame (hcount : cfg'.shared.connectedClients = cfg.shared.connectedClients)
      (hclients : ∀ i, LifeStatus.Tallies (cfg'.status (.client i)) (i ∈ counted)) :
      ∃ counted', Counting start (labels ++ [label]) counted' cfg' :=
    ⟨counted, hcount ▸ h.count, fun i hi => mem_arrivals_append (h.arrived i hi), hstarted, hclients,
      hothers⟩
  have hrest (t : LifeTask ι) (j : ι) (_ : t ≠ .client j) :
      LifeStatus.Tallies (cfg.status (.client j)) (j ∈ counted) := h.clients j
  -- only a client's own increment and decrement change the set
  cases hstep with
  | @start t c hidle hc =>
    apply hsame rfl
    apply tallies_set (hrest t)
    rintro i rfl
    have hout := h.clients i
    rw [hidle] at hout
    obtain ⟨task, rounds⟩ := c
    obtain ⟨rfl, -⟩ := hc
    exact ⟨.before, follows_clientTask rounds, iff_of_false hout (by simp)⟩
  | @act t c a k held r s hrunning hadmits hdoes =>
    by_cases ht : ∃ i, t = .client i
    · obtain ⟨i, rfl⟩ := ht
      have hin := h.clients i
      rw [hrunning] at hin
      obtain ⟨stage, hfollows, hiff⟩ := hin
      have hnext : (k r).Follows tally (fun stage _ => stage = .after) (stage.next a r) := hfollows.2 r
      rcases LifeState.Does.tally hfollows.1 hdoes with ⟨hcount, hstage⟩ | ⟨rfl, -, hcount, hstage⟩ |
        ⟨rfl, -, hcount, hstage⟩
      · apply hsame hcount
        apply tallies_set (hrest _)
        intro j hj
        cases hj
        rw [hstage r rfl] at hnext
        exact ⟨stage, hnext, hiff⟩
      · -- the client is counted
        have hout : i ∉ counted := fun hmem => by cases hiff.mp hmem
        have harrived : ∀ j ∈ insert i counted, j ∈ arrivals (labels ++ [.act (.client i)]) := by
          intro j hj
          rcases Finset.mem_insert.mp hj with rfl | hmem
          · apply mem_arrivals_append
            apply h.started j
            rw [hrunning]
            simp
          · exact mem_arrivals_append (h.arrived j hmem)
        have hcard : (insert i counted).card ≤ (arrivals (labels ++ [.act (.client i)])).length := by
          refine le_trans (Finset.card_le_card fun j hj => ?_) (List.toFinset_card_le _)
          exact List.mem_toFinset.mpr (harrived j hj)
        rw [Finset.card_insert_of_notMem hout] at hcard
        refine ⟨insert i counted, ?_, harrived, hstarted, ?_, hothers⟩
        · rw [Config.set_shared, hcount, UInt64.toNat_add, h.count, Finset.card_insert_of_notMem hout]
          have hone : (1 : UInt64).toNat = 1 := rfl
          rw [hone]
          omega
        · apply tallies_set
          · intro j hj
            have hne : j ≠ i := fun heq => hj (heq ▸ rfl)
            rw [Finset.mem_insert, or_iff_right hne]
            exact h.clients j
          · intro j hj
            cases hj
            rw [hstage r] at hnext
            exact ⟨.counted, hnext, iff_of_true (Finset.mem_insert_self ..) rfl⟩
      · -- the client is counted no more
        have hmem : i ∈ counted := hiff.mpr rfl
        have hpos : 0 < counted.card := Finset.card_pos.mpr ⟨i, hmem⟩
        have hzero : cfg.shared.connectedClients ≠ 0 := by
          intro hzero
          have hcount := h.count
          rw [hzero] at hcount
          have hnil : (0 : UInt64).toNat = 0 := rfl
          omega
        refine ⟨counted.erase i, ?_, fun j hj => ?_, hstarted, ?_, hothers⟩
        · have hone : (1 : UInt64).toNat = 1 := rfl
          have hle : (1 : UInt64) ≤ cfg.shared.connectedClients := by
            rw [UInt64.le_iff_toNat_le, h.count, hone]
            omega
          rw [Config.set_shared, hcount hzero, UInt64.toNat_sub_of_le _ _ hle, h.count, hone,
            Finset.card_erase_of_mem hmem]
          omega
        · exact mem_arrivals_append (h.arrived j (Finset.mem_of_mem_erase hj))
        · apply tallies_set
          · intro j hj
            have hne : j ≠ i := fun heq => hj (heq ▸ rfl)
            rw [Finset.mem_erase, and_iff_right hne]
            exact h.clients j
          · intro j hj
            cases hj
            rw [hstage r] at hnext
            exact ⟨.after, hnext, iff_of_false (Finset.notMem_erase _ _) (by simp)⟩
    · have hclient (i : ι) : t ≠ .client i := fun hi => ht ⟨i, hi⟩
      apply hsame (LifeState.Does.connectedClients (h.others t _ _ _ hclient hrunning).1 hdoes)
      exact tallies_set (hrest t) fun i hi => absurd hi (hclient i)
  | @panic t c a k held s hrunning hadmits hdoes =>
    have hcount : s.connectedClients = cfg.shared.connectedClients := by
      by_cases ht : ∃ i, t = .client i
      · obtain ⟨i, rfl⟩ := ht
        have hin := h.clients i
        rw [hrunning] at hin
        obtain ⟨stage, hfollows, -⟩ := hin
        rcases LifeState.Does.tally hfollows.1 hdoes with ⟨hcount, -⟩ | ⟨-, hsome, -⟩ | ⟨-, hsome, -⟩
        · exact hcount
        · cases hsome
        · cases hsome
      · have hclient (i : ι) : t ≠ .client i := fun hi => ht ⟨i, hi⟩
        exact LifeState.Does.connectedClients (h.others t _ _ _ hclient hrunning).1 hdoes
    apply hsame hcount
    exact tallies_set (hrest t) fun _ _ => trivial
  | @finish t c b held hrunning =>
    apply hsame rfl
    apply tallies_set (hrest t)
    rintro i rfl
    have hin := h.clients i
    rw [hrunning] at hin
    obtain ⟨stage, hfollows, hiff⟩ := hin
    have hafter : stage = .after := hfollows
    intro hmem
    rw [hafter] at hiff
    cases hiff.mp hmem
  | environment hpasses => exact hsame (LifeState.Passes.connectedClients hpasses) h.clients

variable {server : ServerState (LifeTask ι) n} {sends : ι → List Bytes} {maxFrameSize : ℕ}

/-- The counter of the clients is right. Whatever the tasks do side by side, while what it was before
and the clients that have started are fewer than `2^64`, it is what it was before, and the number of
the clients that are between the two ends of their tasks. Only a task that panicked or was aborted
may be counted beside them. -/
theorem connected_clients
    (h : Run (lifeSystem settings) (.initial (.started server sends maxFrameSize)) labels cfg)
    (hfew : server.connectedClients.toNat + (arrivals labels).length < 2^64) :
    ∃ counted : Finset ι, cfg.shared.server.connectedClients.toNat =
        server.connectedClients.toNat + counted.card ∧
      ∀ i b, LifeStatus.counted (cfg.status (.client i)) = some b → (i ∈ counted ↔ b = true) := by
  suffices hcounting : ∃ counted, Counting server.connectedClients.toNat labels counted cfg by
    obtain ⟨counted, hcounting⟩ := hcounting
    exact ⟨counted, hcounting.count, fun i _ hb => (hcounting.clients i).counted hb⟩
  induction h with
  | nil =>
    refine ⟨∅, rfl, fun i hi => ?_, fun i hi => absurd rfl hi, fun i => ?_, fun t c p held _ hp => ?_⟩
    · exact absurd hi (Finset.notMem_empty i)
    · exact Finset.notMem_empty i
    · cases hp
  | snoc hrun hstep ih =>
    have hlonger (labels : List (Label (LifeTask ι))) (label : Label (LifeTask ι)) :
        (arrivals labels).length ≤ (arrivals (labels ++ [label])).length := by
      unfold arrivals
      rw [List.filterMap_append, List.length_append]
      omega
    obtain ⟨counted, hcounting⟩ := ih (lt_of_le_of_lt (Nat.add_le_add_left (hlonger _ _) _) hfew)
    exact hcounting.step hstep hfew

end Counter

section Sample

theorem counted_facts : (living (fun _ _ => ([] : List Unit)) servingMoves).any (fun o =>
    decide (LifeStatus.counted (o.2.2.status (.client 0)) = some true) &&
      decide (sampleStart.server.connectedClients.toNat + (arrivals o.1).length < 2^64)) = true := by
  decide +kernel

/-- The client waits for another request, and is counted. -/
theorem connected_clients_served : ∃ labels seen cfg,
    living (fun _ _ => ([] : List Unit)) servingMoves = some (labels, seen, cfg) ∧
      0 < cfg.shared.server.connectedClients.toNat := by
  obtain ⟨⟨labels, seen, cfg⟩, hrun, hfacts⟩ := (Option.any_eq_true ..).mp counted_facts
  rw [Bool.and_eq_true, decide_eq_true_eq, decide_eq_true_eq] at hfacts
  have hobserved := observed_living (by simp) hrun
  obtain ⟨counted, hcount, hcounted⟩ := connected_clients hobserved.run hfacts.2
  have hmem : 0 ∈ counted := (hcounted 0 true hfacts.1).mpr rfl
  have hpos : 0 < counted.card := Finset.card_pos.mpr ⟨0, hmem⟩
  refine ⟨labels, seen, cfg, hrun, ?_⟩
  omega

end Sample

end RustKV

import RustKV.AofRuns
import RustKV.ServerTasks

/-! Who waits for whom in the server. The locks cannot deadlock, but a client that does not read
the reply to a logged write stops the others. -/
namespace RustKV
open Tasks

section Blocking
variable {ι : Type} [DecidableEq ι] {n : ℕ} {settings : Settings} {roles : ι → Role}
  {stalls : ServerStatus n → Prop} {s : ServerState ι n}

/-- No tasks wait for one another in a circle, and who waits for a lock holds only locks that are
earlier in the order. -/
theorem no_deadlock {fc : FairConfig ι Round (ServerAct n) ServerAct.Answer (ServerLock n) LockMode
      (ServerState ι n) (IoResult Unit)}
    (h : FairReachable (serverSystem settings roles stalls) s fc) :
    (∀ i, ¬ Relation.TransGen (WaitsFor fc) i i) ∧
      Ordered (serverSystem settings roles stalls) ServerLock.rank fc.config := by
  have hordered : Ordered (serverSystem settings roles stalls) ServerLock.rank fc.config :=
    ordered_of_reachable disciplined_serverSystem (fun _ _ _ hallows => hallows.1)
      (reachable_of_fairReachable h)
  exact ⟨fun i => not_waitsFor_cycle (queued_of_fairReachable h) hordered i, hordered⟩

/-- The task is blocked in `write_value`: its peer does not read. -/
def BlockedInWrite (cfg : ServerConfig ι n) (j : ι) : Prop :=
  ∃ round value k held, cfg.status j = .running round (.act (.writeValue value) k) held ∧
    cfg.shared.stalled j = true

/-- It is blocked in the reply to a logged write. -/
def BlockedInLogged (settings : Settings) (cfg : ServerConfig ι n) (j : ι) : Prop :=
  BlockedInWrite cfg j ∧ ∃ round rest held, cfg.status j = .running round rest held ∧
    round.LogsWrite settings

/-- From a task that awaits a lock the holders never lead to one that is blocked in `write_value`. -/
def PeersHarmless (settings : Settings) (roles : ι → Role) (stalls : ServerStatus n → Prop)
    (cfg : ServerConfig ι n) : Prop :=
  ∀ i j, Relation.TransGen (BlockedBy (serverSystem settings roles stalls) cfg) i j →
    ¬ BlockedInWrite cfg j

variable {cfg : ServerConfig ι n} {j : ι}

/-- What a client holds that writes a reply. -/
theorem replyGuards_of_reachable (h : Reachable (serverSystem settings roles stalls) s cfg)
    {round : Round} {value : RespValue} {k : IoResult Unit → ServerM n (IoResult Unit)}
    {held : List (ServerLock n × LockMode)}
    (hj : cfg.status j = .running round (.act (.writeValue value) k) held) :
    ReplyGuards settings round held := by
  obtain ⟨st, hf, rfl, -⟩ := disciplined_serverSystem.follows_of_reachable h hj
  exact hf.1.2 ⟨value, rfl⟩

/-- Over a reply only the guards of a logged write are held. -/
theorem BlockedInWrite.holds_iff (h : Reachable (serverSystem settings roles stalls) s cfg)
    (hj : BlockedInWrite cfg j) {lock : ServerLock n} :
    Tasks.Holds cfg j lock ↔ BlockedInLogged settings cfg j ∧
      (lock = .aof .engine ∨ lock = .aof .rewriteBarrier) := by
  obtain ⟨round, value, k, held, hstatus, -⟩ := id hj
  rw [Tasks.Holds, hstatus, Status.held_running]
  rcases replyGuards_of_reachable h hstatus with ⟨hlogs, rfl⟩ | ⟨hlogs, rfl⟩
  · refine iff_of_false (by simp) ?_
    rintro ⟨⟨-, round', rest, held, hstatus', hlogs'⟩, -⟩
    rw [hstatus] at hstatus'
    cases hstatus'
    exact hlogs hlogs'
  · have hlogged : BlockedInLogged settings cfg j := ⟨hj, round, _, _, hstatus, hlogs⟩
    constructor
    · rintro ⟨mode, hmode⟩
      refine ⟨hlogged, ?_⟩
      rcases List.mem_pair.mp hmode with heq | heq <;> cases heq
      · exact .inl rfl
      · exact .inr rfl
    · rintro ⟨-, rfl | rfl⟩
      · exact ⟨.write, List.mem_cons_self⟩
      · exact ⟨.read, List.mem_pair.mpr (.inr rfl)⟩

/-- As long as no client is blocked in the reply to a logged write, no client that does not read
stops the others. One that is blocked there stops all who await one of its two guards. -/
theorem peersHarmless_of_logged_read (h : Reachable (serverSystem settings roles stalls) s cfg) :
    ((∀ j, ¬ BlockedInLogged settings cfg j) → PeersHarmless settings roles stalls cfg) ∧
      ∀ i j, BlockedInLogged settings cfg j →
        (Awaits (serverSystem settings roles stalls) cfg i (.aof .engine) ∨
          Awaits (serverSystem settings roles stalls) cfg i (.aof .rewriteBarrier)) →
        ¬ PeersHarmless settings roles stalls cfg := by
  constructor
  · intro hread i j hpath hj
    -- the last task on the way awaits a guard of `j`
    obtain ⟨k, -, lock, -, hholds⟩ := Relation.TransGen.tail'_iff.mp hpath
    exact hread j ((hj.holds_iff h).mp hholds).1
  · rintro i j hj hawaits hharmless
    have hblocked : BlockedBy (serverSystem settings roles stalls) cfg i j := by
      rcases hawaits with ha | ha
      · exact ⟨_, ha, (hj.1.holds_iff h).mpr ⟨hj, .inl rfl⟩⟩
      · exact ⟨_, ha, (hj.1.holds_iff h).mpr ⟨hj, .inr rfl⟩⟩
    exact hharmless i j (.single hblocked) hj.1

end Blocking

section Sample

/-- The state after the start-up on an empty disk. -/
def ServerState.fresh (ι : Type) (n : ℕ) (path : Path) : ServerState ι n :=
  let w := World.fresh n path
  { clock := ⟨0, 0⟩
    kv := w.kv
    files := w.files
    engineFile := w.engineFile
    sent := fun _ => []
    stalled := fun _ => false }

def ServerAct.isWriteValue {n : ℕ} : ServerAct n → Bool
  | .writeValue _ => true
  | _ => false

/-- The actions as a handler, when no file fails. -/
def ServerState.handler {ι : Type} [DecidableEq ι] {n : ℕ} (i : ι) (a : ServerAct n)
    (s : ServerState ι n) : Option (Option a.Answer × ServerState ι n) :=
  if a.isWriteValue && s.stalled i then none
  else
    match World.exec s.clock none a (s.world i) with
    | (answer, w) => some (answer, s.put i w)

theorem handles_serverSystem {ι : Type} [DecidableEq ι] {n : ℕ} {settings : Settings}
    {roles : ι → Role} {stalls : ServerStatus n → Prop} :
    Handles (serverSystem settings roles stalls) ServerState.handler := by
  intro i a s answer s' h
  unfold ServerState.handler at h
  split_ifs at h with hstalled
  rcases hexec : World.exec s.clock none a (s.world i) with ⟨answer', w⟩
  rw [hexec] at h
  cases h
  refine .exec hexec fun value hv => ?_
  subst hv
  simpa [ServerAct.isWriteValue] using hstalled

/-- The log is on, and is rewritten from its first byte on. -/
def sampleSettings : Settings where
  hash := fun _ => 0
  toJson := fun _ => .ok "{}"
  aofPath := some samplePath
  rewriteMinSize := 1

abbrev sampleSystem (roles : Fin 2 → Role) := serverSystem (n := 0) sampleSettings roles fun _ => True

instance (roles : Fin 2 → Role) : DecidableRel (sampleSystem roles).compatible :=
  inferInstanceAs (DecidableRel LockMode.Compatible)

/-- Two clients that set a key. -/
def setRequest : Request := (Record.set "k" [118]).request loadable_set

/-- The first client sets the key and is about to reply, the second one is about to lock the
engine. -/
def stuckMoves : List (Move (Fin 2) Round) :=
  .start firstTask (.client setRequest) :: List.replicate 17 (.go firstTask) ++
    [.start secondTask (.client setRequest), .go secondTask]

def stuck : Option (ServerConfig (Fin 2) 0) :=
  plays (sampleSystem fun _ => .client) ServerState.handler (.initial (.fresh (Fin 2) 0 samplePath))
    stuckMoves

def ServerStatus.isReplying : ServerStatus 0 → Bool
  | .running _ (.act (.writeValue _) _) _ => true
  | _ => false

def ServerStatus.isLocking (lock : AofLock) : ServerStatus 0 → Bool
  | .running _ (.act (.acquire lock' _) _) _ => lock == lock'
  | _ => false

theorem stuck_facts : (stuck.any fun cfg => ServerStatus.isReplying (cfg.status 0) &&
    ServerStatus.isLocking .engine (cfg.status 1) &&
    decide ((.aof .engine, .write) ∈ (cfg.status 0).held) &&
    decide (∀ j, cfg.shared.stalled j = false)) = true := by decide +kernel

theorem ServerStatus.running_of_isReplying {status : ServerStatus 0}
    (h : ServerStatus.isReplying status) :
    ∃ round value k held, status = .running round (.act (.writeValue value) k) held := by
  unfold ServerStatus.isReplying at h
  split at h
  · exact ⟨_, _, _, _, rfl⟩
  · cases h

theorem ServerStatus.running_of_isLocking {lock : AofLock} {status : ServerStatus 0}
    (h : ServerStatus.isLocking lock status) :
    ∃ round mode k held, status = .running round (.act (.acquire lock mode) k) held := by
  unfold ServerStatus.isLocking at h
  split at h
  · rw [beq_iff_eq] at h
    subst h
    exact ⟨_, _, _, _, rfl⟩
  · cases h

theorem reachable_stuck : ∃ cfg, stuck = some cfg ∧
    Reachable (sampleSystem fun _ => .client) (.fresh (Fin 2) 0 samplePath) cfg := by
  obtain ⟨cfg, hcfg, -⟩ := (Option.any_eq_true ..).mp stuck_facts
  refine ⟨cfg, hcfg, reachable_of_plays handles_serverSystem ?_ ⟨[], .nil⟩ hcfg⟩
  intro i round h
  simp only [stuckMoves, List.cons_append, List.mem_cons, List.mem_append, List.mem_replicate,
    reduceCtorEq, Move.start.injEq, and_false, or_false, false_or, List.not_mem_nil] at h
  rcases h with ⟨rfl, rfl⟩ | ⟨rfl, rfl⟩ <;> trivial

theorem peersHarmless_of_logged_read_stuck : ∃ cfg, stuck = some cfg ∧
    PeersHarmless sampleSettings (fun _ => .client) (fun _ => True) cfg := by
  obtain ⟨cfg, hcfg, hreach⟩ := reachable_stuck
  have hfacts := stuck_facts
  simp only [hcfg, Option.any_some, Bool.and_eq_true, decide_eq_true_eq] at hfacts
  refine ⟨cfg, hcfg, (peersHarmless_of_logged_read hreach).1 ?_⟩
  rintro j ⟨⟨_, _, _, _, -, hj⟩, -⟩
  rw [hfacts.2 j] at hj
  cases hj

/-- A client that does not read the reply to its SET keeps the next client from the log. -/
theorem not_peersHarmless : ¬ ∀ (ι : Type) (_ : DecidableEq ι) (n : ℕ) (settings : Settings)
    (roles : ι → Role) (s : ServerState ι n) (cfg : ServerConfig ι n),
    Reachable (serverSystem settings roles fun _ => True) s cfg →
      PeersHarmless settings roles (fun _ => True) cfg := by
  intro hall
  obtain ⟨cfg, hcfg, hreach⟩ := reachable_stuck
  have hfacts := stuck_facts
  simp only [hcfg, Option.any_some, Bool.and_eq_true, decide_eq_true_eq] at hfacts
  obtain ⟨⟨⟨hreplying, hlocking⟩, hheld⟩, -⟩ := hfacts
  -- now the peer of the first client stops reading
  let stalled : ServerConfig (Fin 2) 0 :=
    ⟨{ cfg.shared with stalled := fun _ => true }, cfg.status⟩
  have hstall : Reachable (sampleSystem fun _ => .client) (.fresh (Fin 2) 0 samplePath) stalled :=
    hreach.step (.environment ⟨le_rfl, rfl, fun _ _ => .inr trivial⟩)
  obtain ⟨round, value, k, held, hstatus⟩ := ServerStatus.running_of_isReplying hreplying
  obtain ⟨round', mode, k', held', hstatus'⟩ := ServerStatus.running_of_isLocking hlocking
  have hblocked : BlockedBy (sampleSystem fun _ => .client) stalled 1 0 :=
    ⟨.aof .engine, ⟨round', _, k', held', mode, hstatus', rfl⟩, .write, hheld⟩
  exact hall _ _ _ _ _ _ stalled hstall 1 0 (.single hblocked) ⟨round, value, k, held, hstatus, rfl⟩

/-- Two clients, and between them the rewrite worker. -/
def mixedRoles : Fin 3 → Role := ![.client, .rewriteWorker, .client]

abbrev mixedSystem := serverSystem (n := 0) sampleSettings mixedRoles fun _ => True

instance : DecidableRel mixedSystem.compatible := inferInstanceAs (DecidableRel LockMode.Compatible)

/-- The first client is about to reply, when first the worker and then the second client want the
engine. -/
def queueMoves : List (Move (Fin 3) Round) :=
  .start Three.first (.client setRequest) :: List.replicate 21 (.go Three.first) ++
    [.start Three.second .rewrite, .go Three.second] ++
      .start Three.third (.client setRequest) :: List.replicate 3 (.go Three.third)

def queued : Option (FairConfig (Fin 3) Round (ServerAct 0) ServerAct.Answer (ServerLock 0) LockMode
    (ServerState (Fin 3) 0) (IoResult Unit)) :=
  queueMoves.foldlM (fairPlay mixedSystem ServerState.handler)
    ⟨.initial (.fresh (Fin 3) 0 samplePath), fun _ => []⟩

theorem queued_facts : (queued.any fun fc => ServerStatus.isReplying (fc.config.status 0) &&
    decide ((.aof .engine, .write) ∈ (fc.config.status 0).held) &&
    decide (fc.queue (.aof .engine) = [1, 2])) = true := by decide +kernel

/-- The first client holds the engine, and the others queue for it. -/
theorem no_deadlock_queued : ∃ fc, queued = some fc ∧ Tasks.Holds fc.config 0 (.aof .engine) ∧
    fc.queue (.aof .engine) = [1, 2] ∧ (∀ i, ¬ Relation.TransGen (WaitsFor fc) i i) ∧
    Ordered mixedSystem ServerLock.rank fc.config := by
  obtain ⟨fc, hfc, hfacts⟩ := (Option.any_eq_true ..).mp queued_facts
  simp only [Bool.and_eq_true, decide_eq_true_eq] at hfacts
  obtain ⟨⟨-, hheld⟩, hqueue⟩ := hfacts
  have hreach : FairReachable mixedSystem (.fresh (Fin 3) 0 samplePath) fc := by
    refine fairReachable_of_fairPlays handles_serverSystem ?_ .refl hfc
    intro i round h
    simp only [queueMoves, List.cons_append, List.append_assoc, List.nil_append, List.mem_cons,
      List.mem_append, List.mem_replicate, reduceCtorEq, Move.start.injEq, and_false, or_false,
      false_or] at h
    rcases h with ⟨rfl, rfl⟩ | ⟨rfl, rfl⟩ | ⟨rfl, rfl⟩
    · trivial
    · rfl
    · trivial
  exact ⟨fc, hfc, ⟨.write, hheld⟩, hqueue, no_deadlock hreach⟩

end Sample

end RustKV

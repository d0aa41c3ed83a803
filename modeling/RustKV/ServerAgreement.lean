import RustKV.ServerBlocking
import RustKV.ServerRewrites

/-! The log and the memory agree in every run of the server, whatever clients, rewrites and ticks
do side by side: but for a client between its append and its reply, and for a rewrite, a replay of
the log gives the memory. -/
namespace RustKV
open Decimal TimedMap Tasks Prog ServerM Contract

section Owners
variable {ι : Type} [DecidableEq ι] {n : ℕ} {settings : Settings} {roles : ι → Role}
  {cfg cfg' : ServerConfig ι n} {label : Label ι} {i j : ι} {T : Clock} {s : ServerState ι n}

theorem exclusive_steadySystem (h : Reachable (steadySystem settings roles T) s cfg) :
    Exclusive (steadySystem settings roles T) cfg := exclusive_of_reachable LockMode.Compatible.symm h

theorem access_steadySystem : Disciplined (steadySystem (ι := ι) (n := n) settings roles T)
    (fun _ => access settings.hash) (fun _ _ _ => True) [] id :=
  ⟨rfl, fun _ round _ => round.follows_access, fun _ _ _ _ _ => rfl⟩

/-- The database is changed within operations only. -/
theorem proper_steadySystem (h : Reachable (steadySystem settings roles T) s cfg) {round : Round}
    {a : ServerAct n} {k : a.Answer → ServerM n (IoResult Unit)}
    {held : List (ServerLock n × LockMode)} (hi : cfg.status i = .running round (.act a k) held) :
    a.Proper settings.hash held := by
  obtain ⟨st, hf, rfl, -⟩ := access_steadySystem.follows_of_reachable h hi
  exact hf.1

/-- Two tasks never own the log and the memory. -/
theorem owner_unique (hex : Exclusive (steadySystem settings roles T) cfg)
    (hi : Owns (cfg.status i).held) (hj : Owns (cfg.status j).held) : i = j := by
  by_contra hij
  have hapart {lock : AofLock} {mode mode' : LockMode} (hm : (.aof lock, mode) ∈ (cfg.status i).held)
      (hm' : (.aof lock, mode') ∈ (cfg.status j).held) : mode = .read ∧ mode' = .read :=
    hex i j (.aof lock) mode mode' hij hm hm'
  rcases hi with hi | hi <;> rcases hj with hj | hj
  · exact absurd (hapart hi hj).1 nofun
  · exact absurd (hapart hi hj.1).1 nofun
  · exact absurd (hapart hi.1 hj).2 nofun
  · exact absurd (hapart hi.2 hj.2).1 nofun

/-- The guards of a task after its action. -/
theorem held_of_act {round : Round} {a : ServerAct n} {k : a.Answer → ServerM n (IoResult Unit)}
    {held : List (ServerLock n × LockMode)}
    (hstep : Step (steadySystem settings roles T) cfg (.act i) cfg')
    (hi : cfg.status i = .running round (.act a k) held) :
    (cfg'.status i).held = a.use.after held := by
  cases hstep with
  | act hi' _ _ =>
    rw [hi] at hi'
    cases hi'
    rw [Config.set_status_self]
    rfl

theorem use_of_touches {a : ServerAct n} (h : a.Touches) : a.use = .none := by
  cases a with
  | kv a =>
    cases a with
    | stat => exact h.elim
    | db a =>
      cases a with
      | shard => rfl
      | acquire | release | now | applyLenChange | loadLen | storeLen => exact h.elim
  | file | setEngineFile => rfl
  | acquire | release | engineFile | writeValue | panic => exact h.elim

end Owners

section Agreement
variable {ι : Type} [DecidableEq ι] {n : ℕ} {settings : Settings} {roles : ι → Role}
  {cfg cfg' : ServerConfig ι n} {label : Label ι}
  {labels : List (Label ι)} {seen : List Instant} {T : Clock} {path : Path} {s : ServerState ι n}

/-- Every task keeps its contract, and what nobody owns is settled. -/
structure Agreement (T : Clock) (settings : Settings) (path : Path) (cfg : ServerConfig ι n) : Prop where
  keeps : AllKeep (custody T settings.hash path)
    (fun _ _ _ held s => Clear T settings.hash path held s) (fun _ s (_ : List Unit) => s) cfg []
  steady : Steady T settings.hash cfg.shared
  unowned : (∀ i, ¬ Owns (cfg.status i).held) → Settled T settings.hash path cfg.shared

/-- The duty of the action that is next. -/
theorem Agreement.duty (h : Agreement T settings path cfg) {i : ι} {round : Round} {a : ServerAct n}
    {k : a.Answer → ServerM n (IoResult Unit)} {held : List (ServerLock n × LockMode)}
    (hi : cfg.status i = .running round (.act a k) held) :
    CustodyDuty T settings.hash path a held cfg.shared :=
  (h.keeps i round _ held hi _ ((custody T settings.hash path i round).rely_refl _ _)).1

/-- A step of a steady system keeps the state steady, and no task panics. -/
theorem Agreement.steady_step (h : Agreement T settings path cfg)
    (hreach : Reachable (steadySystem settings roles T) s cfg)
    (hseen : ∀ d ∈ deadlinesSet settings cfg label, Distant T d)
    (hstep : Step (steadySystem settings roles T) cfg label cfg') :
    Steady T settings.hash cfg'.shared ∧ ∀ i, label ≠ .panic i := by
  cases hstep with
  | start | finish => exact ⟨h.steady, by simp⟩
  | @act i round a k held r s' hi hadm hdoes =>
    simp only [deadlinesSet, hi] at hseen
    exact ⟨h.steady.act hdoes.1 (proper_steadySystem hreach hi) hseen, by simp⟩
  | @panic i round a k held s' hi hadm hdoes =>
    simp only [deadlinesSet, hi] at hseen
    exact absurd hdoes.1
      (h.steady.returns (h.duty hi).noPanic (proper_steadySystem hreach hi) hseen)
  | @environment s' henv =>
    obtain ⟨hclock, hlater, stalled, connected, hs⟩ := henv
    refine ⟨⟨?_, ?_, hlater, h.steady.epoch.trans hclock.unix_le⟩, by simp⟩
    · rw [hs]
      exact h.steady.routed
    · rw [hs]
      exact h.steady.distant

/-- Only who owns the log and the memory changes them. -/
theorem Agreement.same_step (h : Agreement T settings path cfg)
    (hstep : Step (steadySystem settings roles T) cfg label cfg')
    (hpanic : ∀ i, label ≠ .panic i)
    (hfree : ∀ i, label.task = some i → ¬ Owns (cfg.status i).held) :
    Same cfg.shared cfg'.shared := by
  cases hstep with
  | start | finish => exact same_refl _
  | @act i round a k held r s' hi hadm hdoes =>
    refine h.steady.same hdoes.1 hdoes.2 fun htouches => ?_
    have howns := (h.duty hi).owned htouches
    exact hfree i rfl (by rw [hi]; exact howns)
  | panic => exact absurd rfl (hpanic _)
  | @environment s' henv =>
    obtain ⟨-, -, stalled, connected, hs⟩ := henv
    rw [hs]
    exact ⟨rfl, rfl, rfl⟩

/-- A task that gives back what it owns has settled it. -/
theorem Agreement.settled_step (h : Agreement T settings path cfg) {i : ι}
    (hstep : Step (steadySystem settings roles T) cfg label cfg')
    (hpanic : ∀ i, label ≠ .panic i) (hl : label.task = some i)
    (howns : Owns (cfg.status i).held) (hfree : ¬ Owns (cfg'.status i).held) :
    Settled T settings.hash path cfg'.shared := by
  cases hstep with
  | @start j c hidle hc =>
    obtain rfl : j = i := Option.some.inj hl
    rw [hidle] at howns
    simp [Owns, LogGuards] at howns
  | @act j round a k held r s' hi hadm hdoes =>
    obtain rfl : j = i := Option.some.inj hl
    rw [Config.set_status_self] at hfree
    rw [hi] at howns
    have hduty := h.duty hi
    refine (hduty.givesBack howns hfree).same (h.steady.same hdoes.1 hdoes.2 fun htouches => ?_)
    -- an action that touches them has no lock
    change ¬ Owns (a.use.after held) at hfree
    rw [use_of_touches htouches] at hfree
    exact hfree howns
  | panic => exact absurd rfl (hpanic _)
  | @finish j round b held hi =>
    obtain rfl : j = i := Option.some.inj hl
    rw [hi] at howns
    exact (h.keeps j round _ held hi _ ((custody T settings.hash path j round).rely_refl _ _)).settled
      howns
  | environment => cases hl

theorem Agreement.step (h : Agreement T settings path cfg) (hpath : settings.aofPath = some path)
    (hreach : Reachable (steadySystem settings roles T) s cfg)
    (hseen : ∀ d ∈ deadlinesSet settings cfg label, Distant T d)
    (hstep : Step (steadySystem settings roles T) cfg label cfg') :
    Agreement T settings path cfg' := by
  obtain ⟨hsteady, hpanic⟩ := h.steady_step hreach hseen hstep
  have hex := exclusive_steadySystem hreach
  have hex' := exclusive_steadySystem (hreach.step hstep)
  -- who makes the step does not own what another task owns
  have hother {i : ι} (howns : Owns (cfg.status i).held) (hl : label.task ≠ some i) :
      Same cfg.shared cfg'.shared := by
    refine h.same_step hstep hpanic fun j hj howns' => hl ?_
    rw [hj, owner_unique hex howns' howns]
  refine ⟨?_, hsteady, fun hfree => ?_⟩
  · refine h.keeps.step (fun _ _ _ _ => rfl) hstep ?_ ?_ ?_
    · intro i round _ _ hshared
      exact round.keeps_custody hpath hsteady
    · intro i round a k held r hlabel hi hadm hdoes
      subst hlabel
      simp only [deadlinesSet, hi] at hseen
      refine ⟨hdoes.1, hdoes.2, hseen, h.steady, hsteady, fun howns hnot => ?_⟩
      refine h.unowned fun j hj => ?_
      -- a former owner would still be one beside the new one
      have hji : j ≠ i := by
        rintro rfl
        rw [hi] at hj
        exact hnot hj
      have hj' : Owns (cfg'.status j).held := by
        rwa [hstep.status_eq (by simpa [Label.task] using hji.symm)]
      refine hji (owner_unique hex' hj' ?_)
      rw [held_of_act hstep hi]
      exact howns
    · intro i round p held hi hl
      exact ⟨fun _ => hsteady, fun howns => hother (by rw [hi]; exact howns) hl⟩
  · by_cases howner : ∃ i, Owns (cfg.status i).held
    · obtain ⟨i, hi⟩ := howner
      have hl : label.task = some i := by
        by_contra hl
        refine hfree i ?_
        rwa [hstep.status_eq hl]
      exact h.settled_step hstep hpanic hl hi (hfree i)
    · rw [not_exists] at howner
      exact (h.unowned howner).same (h.same_step hstep hpanic fun i _ => howner i)

/-- The log and the memory agree in every run in which all deadlines are distant. -/
theorem agreement_of_observed (hpath : settings.aofPath = some path)
    (hsteady : Steady T settings.hash s) (hsettled : Settled T settings.hash path s)
    (h : Observed (steadySystem settings roles T) (deadlinesSet settings) (.initial s) labels
      seen cfg) (hseen : ∀ d ∈ seen, Distant T d) : Agreement T settings path cfg := by
  induction h with
  | nil =>
    refine ⟨fun i round p held hi => ?_, hsteady, fun _ => hsettled⟩
    cases hi
  | @snoc labels seen cfg cfg' label hrun hstep ih =>
    have hagree := ih fun d hd => hseen d (List.mem_append_left _ hd)
    exact hagree.step hpath ⟨labels, hrun.run⟩
      (fun d hd => hseen d (List.mem_append_right _ hd)) hstep

/-- A client between its append and its reply, or a rewrite that holds the barrier. -/
def ServerStatus.Unsettled : ServerStatus n → Prop
  | .running _ (.act a _) held => (.aof .rewriteBarrier, .write) ∈ held ∨ LogGuards held ∧ ¬ a.Resting
  | _ => False

/-- Where no task is in the middle of a write or a rewrite, the log and the memory are settled. -/
theorem Agreement.settled (h : Agreement T settings path cfg)
    (hquiet : ∀ i, ¬ ServerStatus.Unsettled (cfg.status i)) :
    Settled T settings.hash path cfg.shared := by
  by_cases howner : ∃ i, Owns (cfg.status i).held
  · obtain ⟨i, howns⟩ := howner
    have hi := hquiet i
    cases hstatus : cfg.status i with
    | idle | done =>
      rw [hstatus] at howns
      simp [Owns, LogGuards] at howns
    | running round p held =>
      rw [hstatus] at howns hi
      cases p with
      | ret b =>
        exact (h.keeps i round _ held hstatus _
          ((custody T settings.hash path i round).rely_refl _ _)).settled howns
      | act a k =>
        have hduty := h.duty hstatus
        have hno : ¬ ((.aof .rewriteBarrier, .write) ∈ held ∨ LogGuards held ∧ ¬ a.Resting) := hi
        rw [not_or, not_and, not_not] at hno
        have hlog : LogGuards held := howns.resolve_left hno.1
        exact hduty.resting (hno.2 hlog) hlog
  · rw [not_exists] at howner
    exact h.unowned howner

omit [DecidableEq ι] in
/-- A start-up on a settled log gives the memory. -/
theorem Settled.load {hash' : String → UInt64} (h : Settled T hash' path s) (k : ℕ)
    (hash : String → UInt64) : ∃ bytes, s.files path = some bytes ∧
      (Loadable bytes → ∃ db : ShardedDatabase k,
        load k hash path T s.files = (some (.ok ()), db) ∧
        outline (view T.instant (db.toMap hash)) = outline (s.kv.db.toMap hash')) := by
  obtain ⟨log, hlog⟩ := h
  refine ⟨logBytes log, hlog.file, fun hsize => ?_⟩
  obtain ⟨db, hload, hsim⟩ : ∃ db : ShardedDatabase k,
      RustKV.load k hash path T s.files = (some (.ok ()), db) ∧
        Simulates T hash db (replay T clear log) := load_log hlog.file hsize hlog.fits
  refine ⟨db, hload, ?_⟩
  rw [hsim.view_eq]
  exact hlog.replayed

omit [DecidableEq ι] in
/-- A server that has started on an empty log is steady and settled. -/
theorem settled_fresh (h0 : (⟨0, 0⟩ : Clock).Advances T) (hash : String → UInt64) :
    Steady T hash (ServerState.fresh ι n path) ∧ Settled T hash path (ServerState.fresh ι n path) := by
  have hclear : (ShardedDatabase.new n).toMap hash = clear := funext fun key => AList.lookup_empty key
  refine ⟨⟨fun _ key h => absurd (AList.lookup_empty key) h, ?_, h0, le_rfl⟩, [], ?_⟩
  · change AllDistant T ((ShardedDatabase.new n).toMap hash)
    rw [hclear]
    intro key e he
    cases he
  · refine ⟨⟨trivial, ?_⟩, RustKV.put_self (fun _ => none) path [], rfl⟩
    change outline (view T.instant clear) = outline ((ShardedDatabase.new n).toMap hash)
    rw [hclear]
    rfl

end Agreement

section Sample

abbrev steadySample := steadySystem (n := 0) (ι := Fin 2) sampleSettings (fun _ => .client) ⟨5, 5⟩

instance : DecidableRel steadySample.compatible := inferInstanceAs (DecidableRel LockMode.Compatible)

/-- The handler fails no file. -/
theorem ServerState.succeeds_handler {ι : Type} [DecidableEq ι] {n : ℕ} {i : ι} {a : ServerAct n}
    {s s' : ServerState ι n} {answer : Option a.Answer} (h : s.handler i a = some (answer, s')) :
    s.Succeeds a answer s' := by
  cases a with
  | file b =>
    unfold ServerState.handler at h
    have hexec : World.exec s.clock none (.file b) (s.world i) =
        (some (FileSystem.exec b s.files).1,
          { s.world i with files := (FileSystem.exec b s.files).2 }) := by
      cases b <;> rfl
    rw [hexec] at h
    cases h
    refine ⟨rfl, ?_⟩
    simp [ServerState.put, ServerState.world]
  | kv | acquire | release | engineFile | setEngineFile | writeValue | panic => trivial

/-- The actions of the sample, when no file fails. -/
theorem handles_steadySample : Handles steadySample ServerState.handler := by
  intro i a s answer s' h
  have hdoes : s.Does i a answer s' := @handles_serverSystem (Fin 2) _ 0 sampleSettings
    (fun _ => .client) (fun _ => True) i a s answer s' h
  exact ⟨hdoes, ServerState.succeeds_handler h⟩

/-- `SET k v PXAT 1000` -/
def deadlineRequest : Request :=
  (Record.setPxAt "k" [118] 1000).request (by unfold Loadable; decide +kernel)

/-- The first client sets the key with a deadline, the second one has its record in the log. -/
def agreeMoves : List (Move (Fin 2) Round) :=
  .start firstTask (.client deadlineRequest) :: List.replicate 21 (.go firstTask) ++
    .start secondTask (.client setRequest) :: List.replicate 17 (.go secondTask)

def agreeing : Option (List (Label (Fin 2)) × List Instant × ServerConfig (Fin 2) 0) :=
  watch steadySample ServerState.handler (deadlinesSet sampleSettings)
    (.initial (.fresh (Fin 2) 0 samplePath)) agreeMoves

theorem agreeing_facts : (agreeing.any fun o => decide (o.2.1 = [10^9, 10^9]) &&
    !(o.2.2.status 0).isRunning && ServerStatus.isReplying (o.2.2.status 1) &&
    decide ((.aof .rewriteBarrier, .write) ∉ (o.2.2.status 1).held)) = true := by decide +kernel

end Sample

end RustKV

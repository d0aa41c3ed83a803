import RustKV.ServerAgreement
import RustKV.ServerShutdown

/-! The lives of the server refine the server whose tasks take up one call after the other, so that
the log and the memory agree in them too. After a complete shutdown, a start-up on the file that is
left gives the memory back. -/
namespace RustKV
open Decimal TimedMap Tasks Prog LifeM

section Steady
variable {ι : Type} [DecidableEq ι] {n : ℕ}

/-- The server's own task makes no calls. -/
def LifeTask.role : LifeTask ι → Role
  | .client _ => .client
  | .worker .rewrite => .rewriteWorker
  | _ => .ttlWorker

/-- A filesystem operation does what it does without a fault, and no wait ends in a panic. -/
def LifeState.Succeeds (s : LifeState ι n) : (a : LoopAct (ServerAct n) (LifeAct ι n)) →
    Option (LoopAct.Answer ServerAct.Answer LifeAct.Answer a) → LifeState ι n → Prop
  | .inner a, answer, s' => s.server.Succeeds a answer s'.server
  | .outer (.own a), answer, s' => s.server.Succeeds a answer s'.server
  | .outer _, answer, _ => answer.isSome

/-- The life of a server whose filesystem operations succeed, whose clients are not aborted, and
whose clocks advance together, until the time `T`. -/
def steadyLife (settings : Settings) (T : Clock) : System (LifeTask ι) (LifeCall ι)
    (LoopAct (ServerAct n) (LifeAct ι n)) (LoopAct.Answer ServerAct.Answer LifeAct.Answer)
    (ServerLock n) LockMode (LifeState ι n) (IoResult Unit) :=
  { lifeSystem settings with
    does := fun t a s answer s' => s.Does t a answer s' ∧ s.Succeeds a answer s' ∧ s.aborted = [] ∧
      s.server.clock.Advances T
    environment := fun status s s' => s.Passes status s' ∧
      s.server.clock.Advances s'.server.clock ∧ s'.server.clock.Advances T }

/-- The call that a task is in, if it is in one. -/
def LifeState.current (s : LifeState ι n) : LifeTask ι → Option Round
  | .client i => (s.received i).getLast?.map .client
  | .worker w => some w.round
  | .main => none

/-- The call that an answer begins. -/
def LifeAct.enters : (o : LifeAct ι n) → o.Answer → Option Round
  | .select .readValue, .other (.ok (some q)) => some (.client q)
  | .select (.tick w), .other () => some w.round
  | _, _ => none

def LifeAct.Plain (o : LifeAct ι n) : Prop := ∀ a, o ≠ .own a

/-- The actions that leave the log and the memory as they are. -/
def LifeAct.Tame : LifeAct ι n → Prop
  | .own (.acquire ..) | .own (.release ..) | .own .engineFile | .own (.file (.flush _))
  | .own (.file (.syncAll _)) => True
  | .own _ => False
  | _ => True

variable {settings : Settings} {T : Clock} {s s' : LifeState ι n} {t : LifeTask ι}

omit [DecidableEq ι] in
theorem LifeAct.Plain.tame {o : LifeAct ι n} (h : o.Plain) : o.Tame := by
  cases o with
  | own a => exact absurd rfl (h a)
  | _ => trivial

omit [DecidableEq ι] in
/-- The signal begins no call. -/
theorem enters_changed (source : Source) (changed : Except Unit Unit) :
    LifeAct.enters (ι := ι) (n := n) (.select source) (.changed changed) = none := by
  cases source <;> rfl

end Steady

section Loops
variable {ι : Type} [DecidableEq ι] {n : ℕ} {settings : Settings} {T : Clock} {t : LifeTask ι} {α : Type}

/-- The calls of the tasks. -/
abbrev steadyCalls (settings : Settings) (T : Clock) :=
  steadySystem (ι := LifeTask ι) (n := n) settings LifeTask.role T

/-- What a task has to do besides its calls. -/
abbrev LifeStage (n : ℕ) := Tasks.Stage Round (ServerAct n) ServerAct.Answer (IoResult Unit)

/-- The loops of a task around its calls. -/
abbrev Looping (settings : Settings) (T : Clock) (t : LifeTask ι) :
    LifeStage n → LifeM ι n α → Prop :=
  Loops (steadyCalls settings T) LifeAct.Plain LifeAct.Tame LifeAct.enters t

/-- An action of the loop that begins no call. -/
theorem looping_outer {o : LifeAct ι n} {f : o.Answer → LifeM ι n α} (ho : o.Plain)
    (henters : ∀ r, o.enters r = none) (hf : ∀ r, Looping settings T t .resting (f r)) :
    Looping settings T t .resting (outer o >>= f) := by
  refine .outer ho (fun r _ => hf r) (fun r c h => ?_) fun r c h => ?_
  all_goals
    rw [henters r] at h
    cases h

/-- A program without calls, after the last of them. -/
theorem looping_apart {o : LifeAct ι n} {f : o.Answer → LifeM ι n α} (ho : o.Tame)
    (hf : ∀ r, (f r).Only fun b => ∃ o : LifeAct ι n, b = .outer o ∧ o.Tame) :
    Looping settings T t .apart (outer o >>= f) := .apart ⟨⟨o, rfl, ho⟩, hf⟩

/-- A loop around a `select!`, and what comes after it. -/
theorem looping_selectLoop {source : Source}
    {body : source.Item ι → LifeM ι n (Option (IoResult Unit))} {f : IoResult Unit → LifeM ι n α}
    (hf : Looping settings T t .resting (f (.ok ())))
    (hbody : ∀ (item : source.Item ι) (g : Option (IoResult Unit) → LifeM ι n α),
      (∀ result, g (some result) = f result) → Looping settings T t .resting (g none) →
      (LifeAct.enters (n := n) (.select source) (.other item) = none →
        Looping settings T t .resting (body item >>= g)) ∧
      ∀ c, LifeAct.enters (n := n) (.select source) (.other item) = some c →
        t.role.makes settings c ∧ Looping settings T t (.calling c (c.prog settings)) (body item >>= g))
    (rounds : ℕ) : Looping settings T t .resting (selectLoop source body rounds >>= f) := by
  induction rounds with
  | zero =>
    refine .outer (fun _ h => by cases h) (fun r => r.elim) (fun r => r.elim) fun r => r.elim
  | succ rounds ih =>
    refine .outer (fun _ h => by cases h) ?_ ?_ ?_
    · rintro ((_ | _) | item) hnone
      · exact hf
      · refine looping_outer (fun _ h => by cases h) (fun _ => rfl) fun sent => ?_
        cases sent with
        | true => exact hf
        | false => exact ih
      · change Looping settings T t .resting ((body item >>= _) >>= f)
        rw [Prog.bind_assoc]
        exact (hbody item _ (fun _ => rfl) ih).1 hnone
    · rintro (changed | item) c hsome
      · rw [enters_changed] at hsome
        cases hsome
      · have hmakes := hbody item (fun r => r.elim (selectLoop source body rounds >>= f) f)
          (fun _ => rfl) ih
        exact (hmakes.2 c hsome).1
    · rintro (changed | item) c hsome
      · rw [enters_changed] at hsome
        cases hsome
      · change Looping settings T t _ ((body item >>= _) >>= f)
        rw [Prog.bind_assoc]
        exact ((hbody item _ (fun _ => rfl) ih).2 c hsome).2

/-- A client makes a call for every request, and none after an error of its connection. -/
theorem looping_clientTask {i : ι} (rounds : ℕ) :
    Looping settings T (.client i) .resting (clientTask settings rounds : LifeM ι n _) := by
  -- the end of the client, after its loop
  have hrest (result : IoResult Unit) : Looping settings T (.client i) .resting
      (outer .decrConnectedClients >>= fun _ => pure result : LifeM ι n _) :=
    looping_outer (fun _ h => by cases h) (fun _ => rfl) fun _ => .ret _
  have hapart (result : IoResult Unit) : Looping settings T (.client i) .apart
      (outer .decrConnectedClients >>= fun _ => pure result : LifeM ι n _) :=
    looping_apart trivial fun _ => trivial
  refine looping_outer (fun _ h => by cases h) (fun _ => rfl) fun _ => ?_
  refine looping_outer (fun _ h => by cases h) (fun _ => rfl) fun _ => ?_
  refine looping_selectLoop (hrest _) (fun item g hg hnone => ?_) rounds
  rcases item with error | _ | q
  · refine ⟨fun _ => ?_, fun c h => by cases h⟩
    change Looping settings T (.client i) .resting (g (some (.error error)))
    rw [hg]
    exact hrest _
  · refine ⟨fun _ => ?_, fun c h => by cases h⟩
    change Looping settings T (.client i) .resting (g (some (.ok ())))
    rw [hg]
    exact hrest _
  · refine ⟨fun h => (by cases h), fun c h => ?_⟩
    obtain rfl := Option.some.inj h
    refine ⟨trivial, ?_⟩
    change Looping settings T (.client i) _ ((call ((Round.client q).prog settings) >>= _) >>= g)
    rw [Prog.bind_assoc]
    refine loops_bind ?_ ?_
    · rintro (error | _) hagain
      · cases hagain
      · exact hnone
    · rintro (error | _) hagain
      · change Looping settings T (.client i) .apart (g (some (.error error)))
        rw [hg]
        exact hapart _
      · cases hagain

/-- A worker makes a call for every tick. -/
theorem looping_workerTask {w : Worker} (hw : (LifeTask.worker w : LifeTask ι).role.makes settings w.round)
    (rounds : ℕ) :
    Looping settings T (.worker w) .resting (workerTask settings w rounds : LifeM ι n _) := by
  refine looping_outer (fun _ h => by cases h) (fun _ => rfl) fun _ => ?_
  rw [← Prog.bind_pure_self (selectLoop (.tick w) (handleTick settings w) rounds)]
  refine looping_selectLoop (.ret _) (fun item g hg hnone => ⟨fun h => (by cases h), fun c h => ?_⟩) rounds
  obtain rfl := Option.some.inj h
  refine ⟨hw, ?_⟩
  change Looping settings T (.worker w) _ ((call (w.round.prog settings) >>= _) >>= g)
  rw [Prog.bind_assoc]
  refine loops_bind (fun x _ => hnone) fun x hagain => ?_
  cases w <;> cases hagain

omit [DecidableEq ι] in
/-- The last flush writes nothing. -/
theorem only_lastFlush :
    (lastFlush : ServerM n _).Only fun a => (LifeAct.own a : LifeAct ι n).Tame := by
  refine only_bind (only_perform trivial) fun _ => only_bind ?_ fun _ =>
    only_bind (only_perform trivial) fun _ => only_pure _
  refine only_bind (only_bind (only_perform trivial) fun found => ?_) fun r => ?_
  · cases found <;> exact only_pure _
  · cases r with
    | error => exact only_pure _
    | ok file =>
      refine only_bind (only_perform trivial) fun r => ?_
      cases r with
      | error => exact only_pure _
      | ok => exact only_perform trivial

/-- The server's own task makes no call. -/
theorem looping_mainTask (rounds : ℕ) :
    Looping settings T .main .apart (mainTask settings rounds : LifeM ι n _) := by
  refine .apart ?_
  have hone {o : LifeAct ι n} (ho : o.Tame) :
      (outer o : LifeM ι n _).Only fun b => ∃ o : LifeAct ι n, b = .outer o ∧ o.Tame :=
    only_perform ⟨o, rfl, ho⟩
  refine only_bind (only_bind (hone trivial) fun _ => ?_) fun _ => only_bind ?_ fun accepted => ?_
  · split_ifs
    · exact hone trivial
    · exact only_pure _
  · refine only_selectLoop ⟨_, rfl, trivial⟩ ⟨_, rfl, trivial⟩ ⟨_, rfl, trivial⟩ (fun item => ?_) rounds
    cases item with
    | error => exact only_pure _
    | ok i => exact only_bind (hone trivial) fun _ => only_pure _
  · cases accepted with
    | error => exact only_bind (hone trivial) fun _ => only_pure _
    | ok =>
      refine only_bind (only_joinClients ⟨_, rfl, trivial⟩ ⟨_, rfl, trivial⟩ rounds) fun _ => ?_
      refine only_bind (hone trivial) fun _ => ?_
      split_ifs
      · refine only_bind (hone trivial) fun _ => ?_
        exact only_lift only_lastFlush fun a ha => ⟨_, rfl, ha⟩
      · exact only_pure _

end Loops

section Refinement
variable {ι : Type} [DecidableEq ι] {n : ℕ} {settings : Settings} {T : Clock} {s s' : LifeState ι n}
  {t : LifeTask ι} {cfg : LifeConfig ι n}

/-- The last flush leaves the server as it is. -/
theorem server_of_tame {server server' : ServerState (LifeTask ι) n} {a : ServerAct n}
    {answer : Option a.Answer} (ha : (LifeAct.own a : LifeAct ι n).Tame)
    (hdoes : server.Does t a answer server') (hsucceeds : server.Succeeds a answer server') :
    answer.isSome ∧ server' = server := by
  cases a with
  | kv | setEngineFile | writeValue | panic => exact ha.elim
  | acquire | release | engineFile =>
    cases hdoes with
    | exec hexec =>
      cases hexec
      exact ⟨rfl, by simp [ServerState.put, ServerState.world]⟩
  | file b =>
    obtain ⟨rfl, hserver⟩ := hsucceeds
    cases b with
    | flush | syncAll => exact ⟨rfl, hserver⟩
    | openRead | openAppend | openTruncate | readToEnd | writeAll | metadataLen | removeFile | rename =>
      exact ha.elim

omit [DecidableEq ι] in
/-- A connection is counted beside the calls. -/
theorem passes_setConnectedClients {server : ServerState (LifeTask ι) n} (h : server.clock.Advances T)
    (value : UInt64) : server.Passes T (server.setConnectedClients value) :=
  ⟨Clock.advances_refl _, h, server.stalled, value, rfl⟩

/-- What an action of a loop is for the calls. -/
theorem outer_of_does {o : LifeAct ι n} {answer : Option o.Answer} (ho : o.Tame)
    (hdoes : s.Does t (.outer o) answer s') (hsucceeds : s.Succeeds (.outer o) answer s')
    (haborted : s.aborted = []) (hlater : s.server.clock.Advances T) : ∃ r, answer = some r ∧
      Tasks.Beside (steadyCalls settings T) LifeState.server s s' ∧
      (∀ j, j ≠ t → s'.current j = s.current j) ∧
      ∀ c, o.enters r = some c → s'.current t = some c := by
  have hreads {source : Source} {s₁ : LifeState ι n} (h : s.Reads t source s₁) :
      s₁.server = s.server ∧ s₁.current = s.current := by
    cases h with
    | none | some => exact ⟨rfl, rfl⟩
  cases hdoes with
  | own hserver =>
    obtain ⟨hanswer, hsame⟩ := server_of_tame ho hserver hsucceeds
    obtain ⟨r, rfl⟩ := Option.isSome_iff_exists.mp hanswer
    exact ⟨r, rfl, .inl hsame, fun _ _ => rfl, fun c h => by cases h⟩
  | changed h =>
    obtain ⟨hserver, hcurrent⟩ := hreads h
    refine ⟨_, rfl, .inl hserver, fun j _ => congrFun hcurrent j, fun c h => ?_⟩
    rw [enters_changed] at h
    cases h
  | closed h =>
    obtain ⟨hserver, hcurrent⟩ := hreads h
    refine ⟨_, rfl, .inl hserver, fun j _ => congrFun hcurrent j, fun c h => ?_⟩
    rw [enters_changed] at h
    cases h
  | @frame i q conn =>
    refine ⟨_, rfl, .inl rfl, fun j hj => ?_, fun c h => ?_⟩
    · cases j with
      | main | worker => rfl
      | client j =>
        have hji : j ≠ i := fun h => hj (congrArg _ h)
        simp only [LifeState.current]
        rw [Function.update_of_ne hji]
    · obtain rfl := Option.some.inj h
      simp only [LifeState.current]
      rw [Function.update_self, List.getLast?_concat]
      rfl
  | tick => exact ⟨_, rfl, .inl rfl, fun _ _ => rfl, fun c h => h⟩
  | readPanic => cases hsucceeds
  | aborted hmem =>
    rw [haborted] at hmem
    cases hmem
  | incrConnectedClients =>
    refine ⟨_, rfl, .inr fun _ => passes_setConnectedClients hlater _, fun _ _ => rfl, fun c h => ?_⟩
    cases h
  | decrConnectedClients =>
    refine ⟨_, rfl, ?_, fun _ _ => rfl, fun c h => by cases h⟩
    by_cases hzero : s.server.connectedClients = 0
    · exact .inl (if_pos hzero)
    · right
      intro _
      change s.server.Passes T (if _ then _ else _)
      rw [if_neg hzero]
      exact passes_setConnectedClients hlater _
  | _ => exact ⟨_, rfl, .inl rfl, fun _ _ => rfl, fun c h => by cases h⟩

/-- The life of the server around the calls of its tasks. -/
theorem hosts_steadyLife : Hosts (steadyLife (ι := ι) (n := n) settings T) (steadyCalls settings T)
    LifeAct.Plain LifeAct.Tame LifeAct.enters LifeState.server LifeState.current where
  compatible := rfl
  once _ _ := rfl
  loops t c hstarts := by
    obtain ⟨task, rounds⟩ := c
    obtain ⟨rfl, haof⟩ := hstarts
    cases task with
    | main => exact .inr (looping_mainTask rounds)
    | client i => exact .inl (looping_clientTask rounds)
    | worker w =>
      refine .inl (looping_workerTask ?_ rounds)
      cases w with
      | ttl => trivial
      | rewrite => exact haof rfl
  use_inner _ := rfl
  use_plain o ho := by
    cases o with
    | own a => exact absurd rfl (ho a)
    | _ => rfl
  inner t a s r s' h := by
    obtain ⟨hdoes, hsucceeds, haborted, -⟩ := h
    cases hdoes with
    | call hserver => exact ⟨⟨hserver, hsucceeds⟩, rfl⟩
    | aborted hmem =>
      rw [haborted] at hmem
      cases hmem
  outer t o s r s' ho h := by
    obtain ⟨hdoes, hsucceeds, haborted, hlater⟩ := h
    exact outer_of_does (ho.elim LifeAct.Plain.tame id) hdoes hsucceeds haborted hlater
  environment status s s' h := by
    obtain ⟨hpasses, hclock, hlater⟩ := h
    cases hpasses with
    | @server server _ hserver =>
      refine ⟨.inr fun _ => ⟨hclock, hlater, server.stalled, s.server.connectedClients, ?_⟩, rfl⟩
      refine hserver.trans ?_
      unfold ServerState.connectedClients
      rw [Function.update_eq_self]
    | send | close | ended => exact ⟨.inl rfl, rfl⟩

/-- The deadlines that a step of a life sets. -/
def lifeDeadlines (settings : Settings) (cfg : LifeConfig ι n) : Label (LifeTask ι) → List Instant
  | .act t | .panic t =>
    match cfg.status t with
    | .running _ (.act (.inner a) _) _ => (cfg.shared.current t).elim [] fun round =>
        a.deadlines settings.hash round cfg.shared.server
    | _ => []
  | _ => []

theorem watches_steadyLife : Watches (steadyCalls (ι := ι) (n := n) settings T) LifeAct.Plain LifeAct.Tame LifeAct.enters
    LifeState.server LifeState.current (lifeDeadlines settings) (deadlinesSet settings) where
  calls _ _ := ⟨rfl, rfl⟩
  surroundings _ := rfl
  loops _ _ := ⟨rfl, rfl⟩
  surroundings' _ := rfl
  outer cfg' t c o k held hi := by simp only [lifeDeadlines, hi]
  inner cfg' cfg t c' a k held c q hshared hi' hi hcurrent := by
    simp only [lifeDeadlines, deadlinesSet, hi, hi', hcurrent, hshared, Option.elim_some, and_self]

theorem disciplined_steadySystem {roles : LifeTask ι → Role} :
    Disciplined (steadySystem (n := n) settings roles T) (lockOrder settings) (fun _ held _ => held = [])
      [] id :=
  ⟨rfl, fun _ _ _ => Round.follows_prog, fun _ _ _ _ _ => rfl⟩

variable {server : ServerState (LifeTask ι) n} {sends : ι → List Bytes} {maxFrameSize : ℕ}
  {labels : List (Label (LifeTask ι))} {seen : List Instant}

/-- What the tasks of a life do is what tasks do that take up one call after the other. -/
theorem calls_of_life (h : Observed (steadyLife settings T) (lifeDeadlines settings)
    (.initial (.started server sends maxFrameSize)) labels seen cfg) : ∃ labels' cfg',
      Observed (steadyCalls settings T) (deadlinesSet settings) (.initial server) labels' seen cfg' ∧
      Mirrors (steadyCalls settings T) LifeAct.Plain LifeAct.Tame LifeAct.enters LifeState.server
        LifeState.current cfg cfg' := by
  refine hosts_steadyLife.refines watches_steadyLife (fun cfg t c x held hreach hi => ?_) h
  obtain ⟨guards, hfollows, hheld, -⟩ := disciplined_steadySystem.follows_of_reachable hreach hi
  exact hheld.trans hfollows

/-- A steady life is a life. -/
theorem life_of_steadyLife {ω : Type} {observe : LifeConfig ι n → Label (LifeTask ι) → List ω}
    {init : LifeConfig ι n} {seen : List ω}
    (h : Observed (steadyLife settings T) observe init labels seen cfg) :
    Observed (lifeSystem settings) observe init labels seen cfg := by
  induction h with
  | nil => exact .nil
  | @snoc labels seen cfg cfg' label hrun hstep ih =>
    refine ih.snoc ?_
    cases hstep with
    | start hidle hstarts => exact .start (S := lifeSystem settings) hidle hstarts
    | act hi hadm hdoes => exact .act (S := lifeSystem settings) hi hadm hdoes.1
    | panic hi hadm hdoes => exact .panic (S := lifeSystem settings) hi hadm hdoes.1
    | finish hi => exact .finish (S := lifeSystem settings) hi
    | environment henv => exact .environment (S := lifeSystem settings) henv.1

/-- When the server's own task has returned without an error, the log and the memory are settled. -/
theorem settled_of_shutdown {path : Path} (hpath : settings.aofPath = some path)
    (hsteady : Steady T settings.hash server) (hsettled : Settled T settings.hash path server)
    (h : Observed (steadyLife settings T) (lifeDeadlines settings)
      (.initial (.started server sends maxFrameSize)) labels seen cfg)
    (hseen : ∀ d ∈ seen, Distant T d) (hmain : cfg.status .main = .done (some (.ok ()))) :
    Steady T settings.hash cfg.shared.server ∧ Settled T settings.hash path cfg.shared.server := by
  obtain ⟨labels', cfg', hcalls, hmirrors⟩ := calls_of_life h
  obtain ⟨events, hfiles⟩ := h.run.observed fileEvents
  have hlife := life_of_steadyLife hfiles
  have hagree := agreement_of_observed hpath hsteady hsettled hcalls hseen
  rw [← hmirrors.shared]
  refine ⟨hagree.steady, hagree.settled fun t hunsettled => ?_⟩
  -- a task in the middle of a call has not ended
  have hstatus := hmirrors.status t
  cases hcall : cfg'.status t with
  | idle | done =>
    rw [hcall] at hunsettled
    exact hunsettled
  | running round p held =>
    rw [hcall] at hunsettled hstatus
    cases p with
    | ret x => exact hunsettled
    | act a q =>
      obtain ⟨c, k, hi, -⟩ := hstatus.running_act
      have ht : t ≠ .main := by
        rintro rfl
        rw [hmain] at hi
        cases hi
      rcases allKeep_awaking ⟨labels, hlife.run⟩ hi ht with heq | ⟨hspawned, -⟩
      · cases heq
      · obtain ⟨result, hdone⟩ := done_of_closed hlife hmain hspawned
        rw [hi] at hdone
        cases hdone

end Refinement

section Sample

abbrev steadySampleLife := steadyLife (ι := Fin 1) (n := 0) sampleSettings ⟨5, 5⟩

instance : DecidableRel steadySampleLife.compatible :=
  inferInstanceAs (DecidableRel LockMode.Compatible)

/-- The actions of the sample, while its clocks stand still. -/
def steadyHandler (t : LifeTask (Fin 1)) (a : LoopAct (ServerAct 0) (LifeAct (Fin 1) 0))
    (s : LifeState (Fin 1) 0) :
    Option (Option (LoopAct.Answer ServerAct.Answer LifeAct.Answer a) × LifeState (Fin 1) 0) :=
  if s.aborted = [] ∧ s.server.clock = ⟨0, 0⟩ then LifeState.handler (Fin.last 0) [setRequest] t a s else none

def steadyAround (e : LifeEvent (Fin 1)) (status : LifeTask (Fin 1) → LifeStatus (Fin 1) 0)
    (s : LifeState (Fin 1) 0) : Option (LifeState (Fin 1) 0) :=
  if s.server.clock = ⟨0, 0⟩ then LifeEvent.around e status s else none

theorem handles_steadySampleLife : Handles steadySampleLife steadyHandler := by
  intro t a s answer s' h
  unfold steadyHandler at h
  split_ifs at h with hs
  obtain ⟨haborted, hclock⟩ := hs
  have hdoes : s.Does t a answer s' := @LifeState.handles_lifeSystem (Fin 1) _ 0 sampleSettings
    (Fin.last 0) [setRequest] t a s answer s' h
  refine ⟨hdoes, ?_, haborted, by rw [hclock]; exact ⟨5, rfl⟩⟩
  cases a with
  | inner a =>
    obtain ⟨⟨answer', server⟩, hserver, heq⟩ := Option.map_eq_some_iff.mp h
    cases heq
    exact ServerState.succeeds_handler hserver
  | outer o =>
    cases o with
    | own a =>
      obtain ⟨⟨answer', server⟩, hserver, heq⟩ := Option.map_eq_some_iff.mp h
      cases heq
      exact ServerState.succeeds_handler hserver
    | «begin» | spawn | join =>
      unfold LifeState.handler at h
      dsimp only at h
      split_ifs at h
      cases h
      rfl
    | select source =>
      unfold LifeState.handler at h
      dsimp only at h
      split_ifs at h
      · cases h
        rfl
      · cases h
        rfl
      · obtain ⟨_, -, heq⟩ := Option.map_eq_some_iff.mp h
        cases heq
        rfl
    | joinNext =>
      unfold LifeState.handler at h
      dsimp only at h
      split at h
      · cases h
        rfl
      · split_ifs at h
        cases h
        rfl
    | borrow | incrConnectedClients | decrConnectedClients | abortAll =>
      cases h
      rfl
    | park => cases h

theorem surrounds_steadySampleLife : Surrounds steadySampleLife steadyAround := by
  intro e status s s' h
  unfold steadyAround at h
  split_ifs at h with hclock
  have hpasses : s.Passes status s' := @surrounds_lifeSystem (Fin 1) _ 0 sampleSettings e status s s' h
  have hserver : s'.server = s.server := by
    cases e with
    | close =>
      cases h
      rfl
    | send | ended =>
      unfold LifeEvent.around at h
      dsimp only at h
      split at h
      · cases h
        rfl
      · cases h
  refine ⟨hpasses, ?_, ?_⟩
  · rw [hserver]
    exact Clock.advances_refl _
  · rw [hserver, hclock]
    exact ⟨5, rfl⟩

def steadyLiving : Option (List (Label (LifeTask (Fin 1))) × List Instant × LifeConfig (Fin 1) 0) :=
  watchAround steadySampleLife steadyHandler steadyAround (lifeDeadlines sampleSettings)
    (.initial sampleStart) (servingMoves ++ closingMoves)

/-- No deadline is set, the server's own task returns, and the file holds the record of the client. -/
theorem steadyLiving_facts : (steadyLiving.any fun o => decide (o.2.1 = []) &&
    LifeStatus.returned (o.2.2.status .main) && decide (o.2.2.shared.server.clock = ⟨0, 0⟩) &&
    decide (o.2.2.shared.server.files samplePath = some (logBytes [.set "k" [118]]))) = true := by
  decide +kernel

theorem observed_steadyLiving : ∃ labels cfg, steadyLiving = some (labels, [], cfg) ∧
    Observed steadySampleLife (lifeDeadlines sampleSettings) (.initial sampleStart) labels [] cfg ∧
    cfg.status .main = .done (some (.ok ())) ∧ cfg.shared.server.clock = ⟨0, 0⟩ ∧
    cfg.shared.server.files samplePath = some (logBytes [.set "k" [118]]) := by
  obtain ⟨⟨labels, seen, cfg⟩, hwatch, hfacts⟩ := (Option.any_eq_true ..).mp steadyLiving_facts
  simp only [Bool.and_eq_true, decide_eq_true_eq] at hfacts
  obtain ⟨⟨⟨rfl, hmain⟩, hclock⟩, hfile⟩ := hfacts
  refine ⟨labels, cfg, hwatch, ?_, LifeStatus.done_of_returned hmain, hclock, hfile⟩
  refine observed_of_watchAround handles_steadySampleLife surrounds_steadySampleLife ?_ hwatch
  exact fun t c hm => starts_of_mem hm

end Sample

end RustKV

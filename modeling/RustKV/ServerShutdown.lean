import RustKV.ServerSignal

/-! The end of the server. When its own task has returned, all other tasks have ended, and nothing
was done to a file after the last flush of the log. -/
namespace RustKV
open Decimal Tasks Prog LifeM

section Order
variable {ι : Type} [DecidableEq ι] {n : ℕ} {settings : Settings} {s s' : LifeState ι n}
  {t j : LifeTask ι} {cfg cfg' : LifeConfig ι n} {label : Label (LifeTask ι)}
open Contract

/-- What every task may do. The rest is for the server's own task. -/
def LifeAct.Common : LoopAct (ServerAct n) (LifeAct ι n) → Prop
  | .outer (.spawn _) | .outer .joinNext | .outer (.join _) | .outer .abortAll | .outer (.own _) => False
  | _ => True

theorem LifeState.Does.common {a : LoopAct (ServerAct n) (LifeAct ι n)}
    {answer : Option (LoopAct.Answer ServerAct.Answer LifeAct.Answer a)} (h : s.Does t a answer s')
    (ha : LifeAct.Common a) :
    s'.members = s.members ∧ s'.spawned = s.spawned ∧ s'.ended = s.ended := by
  have hreads {source : Source} {s₁ : LifeState ι n} (h : s.Reads t source s₁) :
      s₁.members = s.members ∧ s₁.spawned = s.spawned ∧ s₁.ended = s.ended := by
    cases h with
    | none | some => exact ⟨rfl, rfl, rfl⟩
  cases h with
  | spawn | joinNone | joinNext | join | abortAll | own => exact ha.elim
  | changed h =>
    have hs := hreads h
    exact hs
  | closed h => exact hreads h
  | _ => exact ⟨rfl, rfl, rfl⟩

omit [DecidableEq ι] in
theorem only_common_call {α : Type} (p : ServerM n α) :
    (call p : LifeM ι n α).Only LifeAct.Common := by
  induction p with
  | ret x => trivial
  | act a k ih => exact ⟨trivial, ih⟩

omit [DecidableEq ι] in
theorem only_common_handleRead (item : IoResult (Option Request)) :
    (handleRead settings item : LifeM ι n _).Only LifeAct.Common := by
  rcases item with error | _ | q
  · exact only_pure _
  · exact only_pure _
  · refine only_bind (only_common_call _) fun r => ?_
    cases r <;> exact only_pure _

/-- A task begins when it is spawned, and then does what every task may do. -/
def awaking (t : LifeTask ι) : Contract (LoopAct (ServerAct n) (LifeAct ι n))
    (LoopAct.Answer ServerAct.Answer LifeAct.Answer) (List (ServerLock n × LockMode))
    (LifeState ι n) where
  after a held := (LifeAct.use a).after held
  duty a _ s := t ≠ .main → a = .outer .begin ∨ s.spawned t = true ∧ LifeAct.Common a
  does a _ s r s' := s.Does t a (some r) s'
  rely _ s s' := s.spawned t = true → s'.spawned t = true
  rely_refl _ _ := id
  rely_trans h h' := fun hs => h' (h hs)

theorem LifeCall.keeps_awaking (c : LifeCall ι) (hc : c.task = t) :
    (awaking t).Keeps (fun _ _ _ => True) (c.prog settings : LifeM ι n _) [] s := by
  by_cases hmain : t = .main
  · exact keeps_of_free (fun _ _ _ h => absurd hmain h) (fun _ _ _ => trivial) _
  -- what comes after the beginning
  have hrest {α : Type} {p : LifeM ι n α} (hp : p.Only LifeAct.Common) :
      (awaking t).Keeps (fun _ _ _ => True) (outer .begin >>= fun _ => p) [] s := by
    refine keeps_perform_bind fun s₁ _ => ⟨fun _ => .inl rfl, fun _ s₂ hbegin => ?_⟩
    have hspawned : s₂.spawned t = true := by
      cases hbegin with
      | begin hs => exact hs
    have hstable (held : List (ServerLock n × LockMode)) (s s' : LifeState ι n)
        (hs : s.spawned t = true) (hrely : (awaking t).rely held s s') : s'.spawned t = true := hrely hs
    refine (keeps_only hp hstable ?_ hspawned).mono fun _ _ _ _ => trivial
    intro a held s ha hs
    refine ⟨fun _ => .inr ⟨hs, ha⟩, fun r s' hdoes => ?_⟩
    rw [(LifeState.Does.common hdoes ha).2.1]
    exact hs
  obtain ⟨task, rounds⟩ := c
  cases task with
  | main => exact absurd hc.symm hmain
  | worker w =>
    refine hrest (only_selectLoop trivial trivial trivial (fun item => ?_) rounds)
    exact only_bind (only_common_call _) fun _ => only_pure _
  | client i =>
    refine hrest (only_bind (only_perform trivial) fun _ => ?_)
    refine only_bind (only_selectLoop trivial trivial trivial only_common_handleRead rounds) fun _ => ?_
    exact only_bind (only_perform trivial) fun _ => only_pure _

variable {server : ServerState (LifeTask ι) n} {sends : ι → List Bytes} {maxFrameSize : ℕ}

theorem allKeep_awaking {c : LifeCall ι} {a : LoopAct (ServerAct n) (LifeAct ι n)}
    {k : LoopAct.Answer ServerAct.Answer LifeAct.Answer a → LifeM ι n (IoResult Unit)}
    {held : List (ServerLock n × LockMode)} (h : Reachable (lifeSystem settings) s cfg)
    (hi : cfg.status t = .running c (.act a k) held) (ht : t ≠ .main) :
    a = .outer .begin ∨ cfg.shared.spawned t = true ∧ LifeAct.Common a := by
  obtain ⟨labels, hrun⟩ := h
  obtain ⟨seen, hobserved⟩ := hrun.observed fun _ _ => ([] : List Unit)
  have hkeep : AllKeep (fun t _ => awaking t) (fun _ _ _ _ _ => True) (fun _ s _ => s) cfg seen := by
    refine hobserved.allKeep (fun _ _ _ _ => rfl) ?_ ?_ ?_
    · intro t c cfg seen labels _ _ hstarts
      exact c.keeps_awaking hstarts.1
    · intro t c a k held r s' cfg seen labels _ _ _ _ hdoes
      exact hdoes
    · intro t c p held cfg cfg' label seen labels _ _ _ hstep _ hs
      -- no step takes back a spawn
      have hdoes {j : LifeTask ι} {a : LoopAct (ServerAct n) (LifeAct ι n)}
          {answer : Option (LoopAct.Answer ServerAct.Answer LifeAct.Answer a)} {s : LifeState ι n}
          (h : cfg.shared.Does j a answer s) : s.spawned t = true := by
        by_cases ha : LifeAct.Common a
        · rw [(h.common ha).2.1]
          exact hs
        · cases h with
          | @spawn _ task hnew =>
            change Function.update cfg.shared.spawned task true t = true
            by_cases htask : t = task
            · rw [htask, Function.update_self]
            · rw [Function.update_of_ne htask]
              exact hs
          | own | joinNone | joinNext | join | abortAll | aborted => exact hs
          | _ => exact absurd trivial ha
      cases hstep with
      | start | finish => exact hs
      | act hi hadm h => exact hdoes h
      | panic hi hadm h => exact hdoes h
      | environment henv =>
        cases henv with
        | server | send | close | ended => exact hs
  exact (hkeep t c _ held hi _ id).1 ht

/-- The runtime notes the end of a task when it has ended. -/
theorem ended_done (h : Reachable (lifeSystem settings) (.started server sends maxFrameSize) cfg)
    (ht : cfg.shared.ended t = true) : ∃ result, cfg.status t = .done result := by
  revert t
  refine h.invariant (I := fun cfg => ∀ {t}, cfg.shared.ended t = true →
    ∃ result, cfg.status t = .done result) (fun ht => by cases ht) ?_
  intro cfg label cfg' _ ih hstep t ht
  have hbefore : cfg.shared.ended t = true ∨ ∃ result, cfg'.status t = .done result := by
    have hdoes {j : LifeTask ι} {a : LoopAct (ServerAct n) (LifeAct ι n)}
        {answer : Option (LoopAct.Answer ServerAct.Answer LifeAct.Answer a)} {s : LifeState ι n}
        (h : cfg.shared.Does j a answer s) : s.ended = cfg.shared.ended := by
      by_cases ha : LifeAct.Common a
      · exact (h.common ha).2.2
      · cases h with
        | spawn | own | joinNone | joinNext | join | abortAll | aborted => rfl
        | _ => exact absurd trivial ha
    cases hstep with
    | start | finish => exact .inl ht
    | act hi hadm h =>
      rw [← hdoes h]
      exact .inl ht
    | panic hi hadm h =>
      rw [← hdoes h]
      exact .inl ht
    | environment henv =>
      cases henv with
      | server | send | close => exact .inl ht
      | @ended t' result hdone =>
        by_cases htt : t = t'
        · subst htt
          exact .inr ⟨result, hdone⟩
        · change Function.update cfg.shared.ended t' true t = true at ht
          rw [Function.update_of_ne htt] at ht
          exact .inl ht
  rcases hbefore with hended | hdone
  · obtain ⟨result, hdone⟩ := ih hended
    rcases hstep.status_cases t with hs | ⟨c, -, hs, -⟩ | ⟨c, a, k, held, r, -, hs, -⟩ |
      ⟨c, a, k, held, -, hs, -⟩ | ⟨c, b, held, -, hs, -⟩
    · exact ⟨result, hs.trans hdone⟩
    all_goals
      rw [hs] at hdone
      cases hdone
  · exact hdone

end Order

section Closing
variable {ι : Type} [DecidableEq ι] {n : ℕ} {settings : Settings} {s s' : LifeState ι n}
  {t j : LifeTask ι} {cfg cfg' : LifeConfig ι n} {label : Label (LifeTask ι)}
open Contract

def LifeAct.fileActs : LoopAct (ServerAct n) (LifeAct ι n) → List FileAct
  | .inner (.file a) | .outer (.own (.file a)) => [a]
  | _ => []

/-- The operations on files, with the tasks that ask for them. -/
def fileEvents (cfg : LifeConfig ι n) : Label (LifeTask ι) → List (LifeTask ι × FileAct)
  | .act t | .panic t =>
    match cfg.status t with
    | .running _ (.act a _) _ => (LifeAct.fileActs a).map (Prod.mk t)
    | _ => []
  | _ => []

namespace LifeState

/-- Every other task that was spawned has ended. -/
def Quiet (s : LifeState ι n) : Prop :=
  ∀ t, t ≠ .main → s.spawned t = true → s.ended t = true

/-- A client that was spawned has ended or is still in the set, and the worker that rewrites the
log is spawned only if there is a log. -/
structure Custody (settings : Settings) (s : LifeState ι n) : Prop where
  clients : ∀ i, s.spawned (.client i) = true → i ∈ s.members ∨ s.ended (.client i) = true
  workers : s.spawned (.worker .rewrite) = true → settings.aofPath.isSome = true

/-- What the others leave to the server's own task. -/
structure Keeps (s s' : LifeState ι n) : Prop where
  members : s'.members = s.members
  spawned : s'.spawned = s.spawned
  ended : ∀ t, s.ended t = true → s'.ended t = true

omit [DecidableEq ι] in
theorem Keeps.quiet (h : s.Keeps s') (hs : s.Quiet) : s'.Quiet := by
  intro t ht hspawned
  rw [h.spawned] at hspawned
  exact h.ended t (hs t ht hspawned)

omit [DecidableEq ι] in
theorem Keeps.custody (h : s.Keeps s') (hs : s.Custody settings) : s'.Custody settings := by
  refine ⟨fun i hi => ?_, fun hw => ?_⟩
  · rw [h.spawned] at hi
    rw [h.members]
    exact (hs.clients i hi).imp_right (h.ended _)
  · rw [h.spawned] at hw
    exact hs.workers hw

theorem Does.keeps {a : LoopAct (ServerAct n) (LifeAct ι n)}
    {answer : Option (LoopAct.Answer ServerAct.Answer LifeAct.Answer a)} (h : s.Does t a answer s')
    (ha : LifeAct.Common a) : s.Keeps s' := by
  obtain ⟨hmembers, hspawned, hended⟩ := h.common ha
  exact ⟨hmembers, hspawned, fun t ht => by rwa [hended]⟩

end LifeState

/-- When the server's own task has returned without an error, every other task has ended, and the
log, if there is one, was flushed after everything else. -/
def Closed (settings : Settings) (s : LifeState ι n) (events : List (LifeTask ι × FileAct)) : Prop :=
  s.Quiet ∧ (settings.aofPath.isSome = true → ∃ before file,
    events = before ++ [(.main, .flush file), (.main, .syncAll file)] ∧
      s.server.engineFile = some file)

/-- What the other tasks do beside the server's own task. -/
structure LeavesMain (v v' : LifeState ι n × List (LifeTask ι × FileAct)) : Prop where
  keeps : v.1.Keeps v'.1
  quiet : v.1.Quiet → v'.2 = v.2 ∧ v'.1.server.engineFile = v.1.server.engineFile

def closing (t : LifeTask ι) : Contract (LoopAct (ServerAct n) (LifeAct ι n))
    (LoopAct.Answer ServerAct.Answer LifeAct.Answer) (List (ServerLock n × LockMode))
    (LifeState ι n × List (LifeTask ι × FileAct)) where
  after a held := (LifeAct.use a).after held
  duty _ _ _ := True
  does a _ v r v' := v.1.Does t a (some r) v'.1 ∧ v'.2 = v.2 ++ (LifeAct.fileActs a).map (Prod.mk t)
  rely _ v v' := t = .main → LeavesMain v v'
  rely_refl _ _ _ := ⟨⟨rfl, rfl, fun _ h => h⟩, fun _ => ⟨rfl, rfl⟩⟩
  rely_trans h h' ht := by
    obtain ⟨⟨hmembers, hspawned, hended⟩, hquiet⟩ := h ht
    obtain ⟨⟨hmembers', hspawned', hended'⟩, hquiet'⟩ := h' ht
    refine ⟨⟨hmembers'.trans hmembers, hspawned'.trans hspawned, fun t h => hended' t (hended t h)⟩,
      fun hs => ?_⟩
    obtain ⟨hevents, hfile⟩ := hquiet hs
    obtain ⟨hevents', hfile'⟩ := hquiet' ((h ht).keeps.quiet hs)
    exact ⟨hevents'.trans hevents, hfile'.trans hfile⟩

variable {v : LifeState ι n × List (LifeTask ι × FileAct)}

theorem ServerState.Does.of_engineFile {server server' : ServerState (LifeTask ι) n}
    {answer : Option (Option File)} (h : server.Does t (.engineFile) answer server') :
    answer = some server.engineFile ∧ server'.engineFile = server.engineFile := by
  cases h with
  | exec hexec =>
    cases hexec
    exact ⟨rfl, rfl⟩

theorem ServerState.Does.engineFile_of_file {server server' : ServerState (LifeTask ι) n} {a : FileAct}
    {answer : Option a.Answer} (h : server.Does t (.file a) answer server') :
    server'.engineFile = server.engineFile := by
  cases h with
  | exec hexec =>
    cases hexec
    rfl
  | fileError => rfl

theorem ServerState.Does.engineFile_of_release {server server' : ServerState (LifeTask ι) n}
    {lock : AofLock} {mode : LockMode} {answer : Option Unit}
    (h : server.Does t (.release lock mode) answer server') :
    server'.engineFile = server.engineFile := by
  cases h with
  | exec hexec =>
    cases hexec
    rfl

/-- The server's own task acts on the log. -/
theorem keeps_own_act {α : Type} {a : ServerAct n} {f : a.Answer → ServerM n α}
    {Q : α → List (ServerLock n × LockMode) → LifeState ι n × List (LifeTask ι × FileAct) → Prop}
    {P : LifeState ι n × List (LifeTask ι × FileAct) → Prop} {held : List (ServerLock n × LockMode)}
    (hP : ∀ v v', P v → LeavesMain v v' → P v') (h : P v)
    (hact : ∀ v v' server r, P v → v.1.server.Does .main a (some r) server →
      v' = ({ v.1 with server := server }, v.2 ++ (LifeAct.fileActs
        (.outer (.own a) : LoopAct (ServerAct n) (LifeAct ι n))).map (Prod.mk .main)) →
      (closing (ι := ι) (n := n) .main).Keeps Q (own (f r)) (a.use.after held) v') :
    (closing (ι := ι) (n := n) .main).Keeps Q (own (perform a >>= f)) held v := by
  intro v₁ hrely
  refine ⟨trivial, fun r v₂ hdoes => ?_⟩
  obtain ⟨hdoes, hevents⟩ := hdoes
  obtain ⟨s₂, events⟩ := v₂
  obtain rfl : events = _ := hevents
  cases hdoes with
  | own hserver => exact hact v₁ _ _ r (hP v v₁ h (hrely rfl)) hserver rfl

/-- What was done to the log last, if the flush has succeeded. -/
def Flushed (result : IoResult Unit) (v : LifeState ι n × List (LifeTask ι × FileAct)) : Prop :=
  v.1.Quiet ∧ (result = .ok () → ∃ before file,
    v.2 = before ++ [(.main, .flush file), (.main, .syncAll file)] ∧
      v.1.server.engineFile = some file)

omit [DecidableEq ι] in
theorem Flushed.leaves {v v' : LifeState ι n × List (LifeTask ι × FileAct)} {result : IoResult Unit}
    (h : Flushed result v) (hleaves : LeavesMain v v') : Flushed result v' := by
  obtain ⟨hevents, hfile⟩ := hleaves.quiet h.1
  refine ⟨hleaves.keeps.quiet h.1, fun hresult => ?_⟩
  obtain ⟨before, file, hbefore, hopen⟩ := h.2 hresult
  exact ⟨before, file, hevents.trans hbefore, hfile.trans hopen⟩

/-- The end of the server's own task, when all others have ended. -/
theorem keeps_lastFlush (h : v.1.Quiet) :
    (closing (ι := ι) (n := n) .main).Keeps (fun result _ v => Flushed result v) (own lastFlush) [] v := by
  -- the lock is given back at the end in any case
  have hrelease (result : IoResult Unit) (held : List (ServerLock n × LockMode))
      (v : LifeState ι n × List (LifeTask ι × FileAct)) (h : Flushed result v) :
      (closing (ι := ι) (n := n) .main).Keeps (fun result _ v => Flushed result v)
        (own (ServerM.release .engine .write >>= fun _ => pure result)) held v := by
    refine keeps_own_act (fun _ _ => Flushed.leaves) h ?_
    rintro v _ server r ⟨hquiet, hlast⟩ hdoes rfl v' hrely
    have hnow : Flushed result ({ v.1 with server := server }, v.2 ++ []) := by
      refine ⟨hquiet, fun hresult => ?_⟩
      obtain ⟨before, file, hbefore, hopen⟩ := hlast hresult
      exact ⟨before, file, (List.append_nil _).trans hbefore, hdoes.engineFile_of_release.trans hopen⟩
    exact hnow.leaves (hrely rfl)
  have hfailed {error : IoError} {v : LifeState ι n × List (LifeTask ι × FileAct)} (h : v.1.Quiet) :
      Flushed (.error error) v := ⟨h, fun h => by cases h⟩
  have hstable (v v' : LifeState ι n × List (LifeTask ι × FileAct)) (hquiet : v.1.Quiet)
      (hleaves : LeavesMain v v') : v'.1.Quiet := hleaves.keeps.quiet hquiet
  refine keeps_own_act (a := .acquire .engine .write) hstable h ?_
  rintro v _ server _ hquiet - rfl
  refine keeps_own_act (a := .engineFile) hstable hquiet ?_
  rintro v _ server found hquiet hdoes rfl
  obtain ⟨hfound, hopen⟩ := hdoes.of_engineFile
  obtain rfl := Option.some.inj hfound
  rcases hfile : v.1.server.engineFile with _ | file
  · exact hrelease _ _ _ (hfailed hquiet)
  rw [hfile] at hopen
  refine keeps_own_act (a := .file (.flush file)) (P := fun v => v.1.Quiet ∧
    v.1.server.engineFile = some file) ?_ ⟨hquiet, hopen⟩ ?_
  · rintro v v' ⟨hquiet, hopen⟩ hleaves
    exact ⟨hstable v v' hquiet hleaves, (hleaves.quiet hquiet).2.trans hopen⟩
  rintro v _ server result ⟨hquiet, hopen⟩ hdoes rfl
  have hopen₁ : server.engineFile = some file := hdoes.engineFile_of_file.trans hopen
  rcases result with error | _
  · exact hrelease _ _ _ (hfailed hquiet)
  refine keeps_own_act (a := .file (.syncAll file)) (P := fun v => v.1.Quiet ∧
    v.1.server.engineFile = some file ∧ ∃ before, v.2 = before ++ [(.main, .flush file)]) ?_
    ⟨hquiet, hopen₁, v.2, rfl⟩ ?_
  · rintro v v' ⟨hquiet, hopen, before, hbefore⟩ hleaves
    obtain ⟨hevents, hsame⟩ := hleaves.quiet hquiet
    exact ⟨hstable v v' hquiet hleaves, hsame.trans hopen, before, hevents.trans hbefore⟩
  rintro v _ server result ⟨hquiet, hopen, before, hbefore⟩ hdoes rfl
  refine hrelease result _ _ ⟨hquiet, fun _ => ⟨before, file, ?_, ?_⟩⟩
  · change v.2 ++ [(LifeTask.main, FileAct.syncAll file)] = _
    rw [hbefore, List.append_assoc]
    rfl
  · exact hdoes.engineFile_of_file.trans hopen

/-- The server's own task acts on the state of its tasks. -/
theorem keeps_closing_outer {o : LifeAct ι n} {P : LifeState ι n → Prop}
    {R : o.Answer → LifeState ι n → Prop} (ho : ∀ a, o ≠ .own a)
    (hP : ∀ s s' : LifeState ι n, P s → s.Keeps s' → P s')
    (hR : ∀ r (s s' : LifeState ι n), R r s → s.Keeps s' → R r s') (h : P v.1)
    (hact : ∀ s r s', P s → s.Does .main (.outer o) (some r) s' → R r s') :
    (closing (ι := ι) (n := n) .main).Keeps (fun r held v => held = [] ∧ R r v.1) (outer o) [] v := by
  intro v₁ hrely
  refine ⟨trivial, fun r v₂ hdoes v₃ hrely' => ⟨?_, ?_⟩⟩
  · cases o with
    | own a => exact absurd rfl (ho a)
    | _ => rfl
  · exact hR r v₂.1 v₃.1 (hact v₁.1 r v₂.1 (hP _ _ h (hrely rfl).keeps) hdoes.1) (hrely' rfl).keeps

/-- A spawn puts a client into the set. -/
theorem LifeState.Does.custody_of_spawn {task : LifeTask ι} {r : Unit}
    (h : s.Does t (.outer (.spawn task)) (some r) s') (hs : s.Custody settings)
    (htask : task = .worker .rewrite → settings.aofPath.isSome = true) : s'.Custody settings := by
  cases h with
  | spawn hnew =>
    refine ⟨fun i hi => ?_, fun hw => ?_⟩
    · change Function.update s.spawned task true (.client i) = true at hi
      change i ∈ task.clients ++ s.members ∨ _
      by_cases htask : .client i = task
      · rw [← htask]
        exact .inl (List.mem_append_left _ (List.mem_singleton_self i))
      · rw [Function.update_of_ne htask] at hi
        exact (hs.clients i hi).imp_left (List.mem_append_right _)
    · change Function.update s.spawned task true (.worker .rewrite) = true at hw
      by_cases hrewrite : .worker .rewrite = task
      · exact htask hrewrite.symm
      · rw [Function.update_of_ne hrewrite] at hw
        exact hs.workers hw

theorem keeps_closing_spawn {task : LifeTask ι} (h : v.1.Custody settings)
    (htask : task = .worker .rewrite → settings.aofPath.isSome = true) :
    (closing (ι := ι) (n := n) .main).Keeps (fun _ held v => held = [] ∧ v.1.Custody settings)
      (outer (.spawn task)) [] v :=
  keeps_closing_outer (P := fun s => s.Custody settings) (R := fun _ s => s.Custody settings) (by simp)
    (fun _ _ hs hkeeps => hkeeps.custody hs) (fun _ _ _ hs hkeeps => hkeeps.custody hs) h
    fun _ _ _ hs hdoes => hdoes.custody_of_spawn hs htask

theorem keeps_closing_acceptLoop (rounds : ℕ) (h : v.1.Custody settings) :
    (closing (ι := ι) (n := n) .main).Keeps (fun _ held v => held = [] ∧ v.1.Custody settings)
      (acceptLoop rounds) [] v := by
  have hstable (v v' : LifeState ι n × List (LifeTask ι × FileAct)) (hv : v.1.Custody settings)
      (hrely : (closing .main).rely ([] : List (ServerLock n × LockMode)) v v') : v'.1.Custody settings :=
    (hrely rfl).keeps.custody hv
  have hdone {result : IoResult Unit} {v : LifeState ι n × List (LifeTask ι × FileAct)}
      (h : v.1.Custody settings) : (closing (ι := ι) (n := n) .main).Keeps
        (fun _ held v => held = [] ∧ v.1.Custody settings) (pure result) [] v :=
    keeps_pure fun v' hrely => ⟨rfl, hstable v v' h hrely⟩
  refine keeps_selectLoop (I := fun v => v.1.Custody settings) (fun _ => rfl) hstable
    (fun _ _ => trivial) (fun _ _ => trivial) ?_ ?_ ?_ rounds h
  · intro v v' hv hdoes
    exact hdone ((hdoes.1.keeps trivial).custody hv)
  · intro v v' hv hdoes v₁ hrely
    refine ⟨trivial, fun sent v₂ hborrow v₃ hrely' => ?_⟩
    have hv₁ := hstable _ _ ((hdoes.1.keeps trivial).custody hv) hrely
    have hv₃ := hstable _ _ ((hborrow.1.keeps trivial).custody hv₁) hrely'
    exact ⟨rfl, fun _ => hdone hv₃, fun _ => hv₃⟩
  · intro item v v' hv hdoes
    have hv' := (hdoes.1.keeps trivial).custody hv
    cases item with
    | error error =>
      exact keeps_pure fun v₁ hrely => ⟨rfl, @hdone (.error error) v₁ (hstable _ _ hv' hrely)⟩
    | ok i =>
      refine keeps_bind (keeps_closing_spawn hv' (by simp)) ?_
      rintro _ _ v ⟨rfl, hv⟩
      exact keeps_pure fun v₁ hrely => ⟨rfl, hstable _ _ hv hrely⟩

/-- The set of the client tasks is empty, so all clients have ended. -/
def LifeState.Joined (settings : Settings) (s : LifeState ι n) : Prop :=
  s.Custody settings ∧ s.members = []

omit [DecidableEq ι] in
theorem LifeState.Keeps.joined (h : s.Keeps s') (hs : s.Joined settings) : s'.Joined settings :=
  ⟨h.custody hs.1, h.members.trans hs.2⟩

theorem keeps_closing_joinClients (rounds : ℕ) (h : v.1.Custody settings) :
    (closing (ι := ι) (n := n) .main).Keeps (fun _ held v => held = [] ∧ v.1.Joined settings)
      (joinClients rounds) [] v := by
  induction rounds generalizing v with
  | zero => exact fun _ _ => ⟨trivial, fun r => r.elim⟩
  | succ rounds ih =>
    refine keeps_bind (keeps_closing_outer (o := .joinNext) (P := fun s => s.Custody settings)
      (R := fun r s => s.Custody settings ∧ (r = none → s.members = [])) (by simp)
      (fun _ _ hs hkeeps => hkeeps.custody hs)
      (fun _ _ _ hs hkeeps => ⟨hkeeps.custody hs.1, fun hr => hkeeps.members.trans (hs.2 hr)⟩) h ?_) ?_
    · intro s r s' hs hdoes
      cases hdoes with
      | joinNone hmembers => exact ⟨hs, fun _ => hmembers⟩
      | @joinNext _ i hi hended =>
        refine ⟨⟨fun j hj => ?_, hs.workers⟩, fun hr => by cases hr⟩
        rcases hs.clients j hj with hmem | hj
        · by_cases hji : j = i
          · rw [hji]
            exact .inr hended
          · exact .inl ((List.mem_erase_of_ne hji).mpr hmem)
        · exact .inr hj
    · rintro (_ | _) _ v ⟨rfl, hv⟩
      · exact keeps_pure fun v' hrely =>
          ⟨rfl, (hrely rfl).keeps.joined ⟨hv.1, hv.2 rfl⟩⟩
      · exact ih hv.1

omit [DecidableEq ι] in
/-- When the workers are joined too, every other task has ended. -/
theorem LifeState.Joined.quiet (h : s.Joined settings) (httl : s.ended (.worker .ttl) = true)
    (hrewrite : settings.aofPath.isSome = true → s.ended (.worker .rewrite) = true) : s.Quiet := by
  intro t ht hspawned
  cases t with
  | main => exact absurd rfl ht
  | worker w =>
    cases w with
    | ttl => exact httl
    | rewrite => exact hrewrite (h.1.workers hspawned)
  | client i =>
    refine (h.1.clients i hspawned).resolve_left fun hmem => ?_
    rw [h.2] at hmem
    cases hmem

/-- A worker that was awaited has ended, and stays so. -/
theorem keeps_closing_join {w : Worker} {P : LifeState ι n → Prop}
    (hP : ∀ s s' : LifeState ι n, P s → s.Keeps s' → P s') (h : P v.1) :
    (closing (ι := ι) (n := n) .main).Keeps
      (fun _ held v => held = [] ∧ P v.1 ∧ v.1.ended (.worker w) = true) (outer (.join w)) [] v := by
  refine keeps_closing_outer (o := .join w) (R := fun _ s => P s ∧ s.ended (.worker w) = true) (by simp)
    hP (fun _ s s' hs hkeeps => ⟨hP s s' hs.1 hkeeps, hkeeps.ended _ hs.2⟩) h ?_
  intro s r s' hs hdoes
  cases hdoes with
  | join hended => exact ⟨hs, hended⟩

theorem keeps_closing_shutDown (rounds : ℕ) (accepted : IoResult Unit) (h : v.1.Custody settings) :
    (closing (ι := ι) (n := n) .main).Keeps
      (fun result _ v => result = .ok () → Closed settings v.1 v.2)
      (shutDown settings rounds accepted) [] v := by
  rcases accepted with error | _
  · -- an error of the listener
    refine keeps_bind (P := fun _ _ _ => True) (fun _ _ => ⟨trivial, fun _ _ _ _ _ => trivial⟩) ?_
    intro _ _ _ _
    exact keeps_pure fun _ _ h => by cases h
  refine keeps_bind (keeps_closing_joinClients rounds h) ?_
  rintro _ _ v ⟨rfl, hv⟩
  have hjoined (s s' : LifeState ι n) (hs : s.Joined settings) (hkeeps : s.Keeps s') :
      s'.Joined settings := hkeeps.joined hs
  refine keeps_bind (keeps_closing_join hjoined hv) ?_
  rintro _ _ v ⟨rfl, hv, httl⟩
  split_ifs with haof
  · refine keeps_bind (keeps_closing_join (P := fun s => s.Joined settings ∧
      s.ended (.worker .ttl) = true) ?_ ⟨hv, httl⟩) ?_
    · exact fun s s' hs hkeeps => ⟨hjoined s s' hs.1 hkeeps, hkeeps.ended _ hs.2⟩
    rintro _ _ v ⟨rfl, ⟨hv, httl⟩, hrewrite⟩
    refine (keeps_lastFlush (hv.quiet httl fun _ => hrewrite)).mono ?_
    intro result _ v hv hresult
    exact ⟨hv.1, fun _ => hv.2 hresult⟩
  · refine keeps_pure fun v' hrely _ => ⟨?_, fun h => absurd h haof⟩
    exact (hrely rfl).keeps.quiet (hv.quiet httl fun h => absurd h haof)

theorem keeps_closing_mainTask (rounds : ℕ) (h : v.1.Custody settings) :
    (closing (ι := ι) (n := n) .main).Keeps
      (fun result _ v => result = .ok () → Closed settings v.1 v.2) (mainTask settings rounds) [] v := by
  refine keeps_bind (P := fun _ held v => held = [] ∧ v.1.Custody settings) ?_ ?_
  · refine keeps_bind (keeps_closing_spawn h (by simp)) ?_
    rintro _ _ v ⟨rfl, hv⟩
    split_ifs with haof
    · exact keeps_closing_spawn hv fun _ => haof
    · exact keeps_pure fun v' hrely => ⟨rfl, (hrely rfl).keeps.custody hv⟩
  rintro _ _ v ⟨rfl, hv⟩
  refine keeps_bind (keeps_closing_acceptLoop rounds hv) ?_
  rintro accepted _ v ⟨rfl, hv⟩
  exact keeps_closing_shutDown rounds accepted hv

variable {server : ServerState (LifeTask ι) n} {sends : ι → List Bytes} {maxFrameSize : ℕ}
  {labels : List (Label (LifeTask ι))} {seen : List (LifeTask ι × FileAct)}

/-- What the others do beside the server's own task. -/
theorem leavesMain_of_step
    (h : Reachable (lifeSystem settings) (.started server sends maxFrameSize) cfg)
    (hstep : Step (lifeSystem settings) cfg label cfg') (hmain : label.task ≠ some .main) :
    LeavesMain (cfg.shared, seen) (cfg'.shared, seen ++ fileEvents cfg label) := by
  -- an action of another task, which has not ended
  have hact {t : LifeTask ι} {c : LifeCall ι} {a : LoopAct (ServerAct n) (LifeAct ι n)}
      {k : LoopAct.Answer ServerAct.Answer LifeAct.Answer a → LifeM ι n (IoResult Unit)}
      {held : List (ServerLock n × LockMode)} {s : LifeState ι n}
      {answer : Option (LoopAct.Answer ServerAct.Answer LifeAct.Answer a)}
      (hi : cfg.status t = .running c (.act a k) held) (ht : t ≠ .main)
      (hdoes : cfg.shared.Does t a answer s) :
      LeavesMain (cfg.shared, seen) (s, seen ++ (LifeAct.fileActs a).map (Prod.mk t)) := by
    rcases allKeep_awaking h hi ht with rfl | ⟨hspawned, hcommon⟩
    · refine ⟨hdoes.keeps trivial, fun _ => ⟨List.append_nil _, ?_⟩⟩
      cases hdoes with
      | begin | aborted => rfl
    · refine ⟨hdoes.keeps hcommon, fun hquiet => ?_⟩
      obtain ⟨result, hdone⟩ := ended_done h (hquiet t ht hspawned)
      rw [hi] at hdone
      cases hdone
  have hsame : LeavesMain (cfg.shared, seen) (cfg.shared, seen ++ []) :=
    ⟨⟨rfl, rfl, fun _ h => h⟩, fun _ => ⟨List.append_nil _, rfl⟩⟩
  cases hstep with
  | start | finish => exact hsame
  | @act t c a k held r s hi hadm hdoes =>
    have heq : fileEvents cfg (.act t) = (LifeAct.fileActs a).map (Prod.mk t) := by
      simp only [fileEvents, hi]
    rw [heq]
    exact hact hi (fun ht => hmain (congrArg some ht)) hdoes
  | @panic t c a k held s hi hadm hdoes =>
    have heq : fileEvents cfg (.panic t) = (LifeAct.fileActs a).map (Prod.mk t) := by
      simp only [fileEvents, hi]
    rw [heq]
    exact hact hi (fun ht => hmain (congrArg some ht)) hdoes
  | environment henv =>
    cases henv with
    | server hclock hserver =>
      refine ⟨⟨rfl, rfl, fun _ h => h⟩, fun _ => ⟨List.append_nil _, ?_⟩⟩
      rw [hserver]
    | send | close => exact ⟨⟨rfl, rfl, fun _ h => h⟩, fun _ => ⟨List.append_nil _, rfl⟩⟩
    | @ended t result hdone =>
      refine ⟨⟨rfl, rfl, fun t' ht' => ?_⟩, fun _ => ⟨List.append_nil _, rfl⟩⟩
      change Function.update cfg.shared.ended t true t' = true
      by_cases htt : t' = t
      · rw [htt, Function.update_self]
      · rw [Function.update_of_ne htt]
        exact ht'

/-- Before the server's own task begins, no other task is spawned but by it. -/
theorem custody_of_idle
    (h : Reachable (lifeSystem settings) (.started server sends maxFrameSize) cfg)
    (hidle : cfg.status .main = .idle) : cfg.shared.Custody settings := by
  have hstarted : (LifeState.started server sends maxFrameSize).Custody settings := by
    refine ⟨fun i hi => ?_, fun hw => ?_⟩
    · cases hi
    · cases hw
  revert hidle
  refine h.invariant (I := fun cfg => cfg.status .main = .idle → cfg.shared.Custody settings)
    (fun _ => hstarted) ?_
  intro cfg label cfg' hreach ih hstep hidle
  have hmain := task_ne_of_idle hstep hidle
  rw [hstep.status_eq hmain] at hidle
  have hleaves : LeavesMain (cfg.shared, []) (cfg'.shared, [] ++ fileEvents cfg label) :=
    leavesMain_of_step hreach hstep hmain
  exact hleaves.keeps.custody (ih hidle)

theorem allKeep_closing (h : Observed (lifeSystem settings) fileEvents
    (.initial (.started server sends maxFrameSize)) labels seen cfg) :
    AllKeep (fun t _ => closing t)
      (fun t _ result _ v => t = .main → result = .ok () → Closed settings v.1 v.2)
      (fun _ s seen => (s, seen)) cfg seen := by
  induction h with
  | nil =>
    intro t c p held hi
    cases hi
  | @snoc labels seen cfg cfg' label hrun hstep ih =>
    refine ih.step (fun _ _ _ _ => rfl) hstep ?_ ?_ ?_
    · intro t c hlabel hstarts hshared
      by_cases hmain : t = .main
      · subst hlabel hmain
        have hidle : cfg.status .main = .idle := by
          cases hstep with
          | start hidle => exact hidle
        have hcustody : cfg'.shared.Custody settings := by
          rw [hshared]
          exact custody_of_idle ⟨labels, hrun.run⟩ hidle
        have hprog : (lifeSystem settings).prog c = mainTask (n := n) settings c.rounds := by
          change c.prog settings = _
          rw [LifeCall.prog, hstarts.1]
        rw [hprog]
        exact (keeps_closing_mainTask c.rounds hcustody).mono fun _ _ _ h _ => h
      · exact keeps_of_free (fun _ _ _ => trivial) (fun _ _ _ h => absurd h hmain) _
    · intro t c a k held r hlabel hi _ hdoes
      subst hlabel
      refine ⟨hdoes, ?_⟩
      simp only [fileEvents, hi]
    · intro t c p held hi ht hmain
      subst hmain
      exact leavesMain_of_step ⟨labels, hrun.run⟩ hstep ht

/-- What holds when the server's own task has returned holds for good. -/
theorem closed_of_observed (h : Observed (lifeSystem settings) fileEvents
    (.initial (.started server sends maxFrameSize)) labels seen cfg)
    (hmain : cfg.status .main = .done (some (.ok ()))) : Closed settings cfg.shared seen := by
  refine h.ended (P := fun t result s seen => t = .main → result = .ok () → Closed settings s seen)
    ?_ ?_ hmain rfl rfl
  · intro t c result held cfg seen labels hrun hi ht hresult
    have hkeeps := allKeep_closing hrun t c _ held hi _ ((closing t).rely_refl held _) ht hresult
    change Closed settings cfg.shared (seen ++ [])
    rwa [List.append_nil]
  · intro t result cfg cfg' label seen labels hrun hstep ht hclosed hmain hresult
    subst hmain
    have hleaves : LeavesMain (cfg.shared, seen) (cfg'.shared, seen ++ fileEvents cfg label) :=
      leavesMain_of_step ⟨labels, hrun.run⟩ hstep ht
    obtain ⟨hquiet, hlog⟩ := hclosed rfl hresult
    obtain ⟨hevents, hfile⟩ := hleaves.quiet hquiet
    refine ⟨hleaves.keeps.quiet hquiet, fun haof => ?_⟩
    obtain ⟨before, file, hbefore, hopen⟩ := hlog haof
    exact ⟨before, file, hevents.trans hbefore, hfile.trans hopen⟩

/-- Then no other task runs but one that was not spawned, and that waits for it. -/
theorem done_of_closed (h : Observed (lifeSystem settings) fileEvents
    (.initial (.started server sends maxFrameSize)) labels seen cfg)
    (hmain : cfg.status .main = .done (some (.ok ()))) (ht : cfg.shared.spawned t = true) :
    ∃ result, cfg.status t = .done result := by
  by_cases heq : t = .main
  · exact ⟨_, heq ▸ hmain⟩
  · exact ended_done ⟨labels, h.run⟩ ((closed_of_observed h hmain).1 t heq ht)

/-- The shutdown is complete. In every run, when the server's own task has returned without an
error, every task that was spawned has ended, and the last operations on files were the flush and
the sync of the open log. -/
theorem shutdown_complete (h : Observed (lifeSystem settings) fileEvents
    (.initial (.started server sends maxFrameSize)) labels seen cfg)
    (hmain : cfg.status .main = .done (some (.ok ()))) :
    (∀ t, cfg.shared.spawned t = true → ∃ result, cfg.status t = .done result) ∧
      (settings.aofPath.isSome = true → ∃ before file,
        seen = before ++ [(.main, .flush file), (.main, .syncAll file)] ∧
          cfg.shared.server.engineFile = some file) :=
  ⟨fun _ ht => done_of_closed h hmain ht, (closed_of_observed h hmain).2⟩

end Closing

section Sample

def LifeStatus.returned : LifeStatus (Fin 1) 0 → Bool
  | .done (some (.ok ())) => true
  | _ => false

theorem closing_facts : (living fileEvents (servingMoves ++ closingMoves)).any (fun o =>
    LifeStatus.returned (o.2.2.status .main) && o.2.2.shared.spawned (.client 0)) = true := by
  decide +kernel

theorem LifeStatus.done_of_returned {status : LifeStatus (Fin 1) 0} (h : LifeStatus.returned status) :
    status = .done (some (.ok ())) := by
  unfold LifeStatus.returned at h
  split at h
  · rfl
  · cases h

theorem shutdown_complete_served : ∃ labels seen cfg,
    living fileEvents (servingMoves ++ closingMoves) = some (labels, seen, cfg) ∧
      (∃ result, cfg.status (.client 0) = .done result) ∧ ∃ before file,
        seen = before ++ [(.main, .flush file), (.main, .syncAll file)] := by
  obtain ⟨⟨labels, seen, cfg⟩, hrun, hfacts⟩ := (Option.any_eq_true ..).mp closing_facts
  rw [Bool.and_eq_true] at hfacts
  have hobserved := observed_living (List.Subset.refl _) hrun
  obtain ⟨hended, hlog⟩ := shutdown_complete hobserved (LifeStatus.done_of_returned hfacts.1)
  obtain ⟨before, file, hbefore, -⟩ := hlog rfl
  exact ⟨labels, seen, cfg, hrun, hended _ hfacts.2, before, file, hbefore⟩

end Sample

end RustKV

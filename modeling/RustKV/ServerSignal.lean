import RustKV.ServerLife

/-! The signal of the shutdown. No task misses it, whatever it does when the signal is sent. -/
namespace RustKV
open Decimal Tasks Prog LifeM

section Hearing
variable {ι : Type} {n : ℕ} {settings : Settings}

/-- A task loops, or it has been woken by the signal, or it leaves its loop. -/
inductive Hearing where
  | looping
  | woken
  | leaving
  deriving DecidableEq

/-- What a task does that leaves its loop: it waits for no request, tick or connection, handles
none, and starts no other task. -/
def LifeAct.Leaves : LoopAct (ServerAct n) (LifeAct ι n) → Prop
  | .inner _ | .outer (.select _) | .outer (.spawn _) | .outer .borrow => False
  | _ => True

def Hearing.Allows : Hearing → LoopAct (ServerAct n) (LifeAct ι n) → Prop
  | .looping, a => a ≠ .outer .borrow
  | .woken, a => a = .outer .borrow
  | .leaving, a => LifeAct.Leaves a

def Hearing.next : Hearing → (a : LoopAct (ServerAct n) (LifeAct ι n)) →
    LoopAct.Answer ServerAct.Answer LifeAct.Answer a → Hearing
  | .looping, .outer (.select _), .changed (.ok ()) => .woken
  | .looping, .outer (.select _), .changed (.error ()) => .leaving
  | .woken, .outer .borrow, true => .leaving
  | .woken, .outer .borrow, false => .looping
  | hearing, _, _ => hearing

/-- A task that is woken looks at the signal, and leaves its loop if it is sent. -/
def hears : Protocol (LoopAct (ServerAct n) (LifeAct ι n))
    (LoopAct.Answer ServerAct.Answer LifeAct.Answer) (Hearing × List (ServerLock n × LockMode)) where
  allows st a := st.1.Allows a
  next st a r := (st.1.next a r, (LifeAct.use a).after st.2)

variable {hearing : Hearing} {held : List (ServerLock n × LockMode)} {α : Type}

theorem only_of_leaving {final : Hearing × List (ServerLock n × LockMode) → α → Prop}
    {p : LifeM ι n α} (h : p.Follows hears final (.leaving, held)) : p.Only LifeAct.Leaves := by
  induction p generalizing held with
  | ret x => trivial
  | act a k ih => exact ⟨h.1, fun r => ih r (h.2 r)⟩

theorem follows_of_leaves {p : LifeM ι n α} (hp : p.Only LifeAct.Leaves) (hearing : Hearing)
    (hwoken : hearing ≠ .woken) :
    p.Follows hears (fun st _ => st.1 = hearing) (hearing, held) := by
  induction p generalizing held with
  | ret x => rfl
  | act a k ih =>
    have ha : LifeAct.Leaves a := hp.1
    have hnext (r : LoopAct.Answer ServerAct.Answer LifeAct.Answer a) : hearing.next a r = hearing := by
      cases hearing with
      | woken => exact absurd rfl hwoken
      | leaving => rfl
      | looping =>
        cases a with
        | inner => exact ha.elim
        | outer o =>
          cases o with
          | select | spawn | borrow => exact ha.elim
          | begin | incrConnectedClients | decrConnectedClients | joinNext | join | abortAll | own
          | park => rfl
    refine ⟨?_, fun r => ?_⟩
    · cases hearing with
      | woken => exact absurd rfl hwoken
      | leaving => exact ha
      | looping =>
        rintro rfl
        exact ha.elim
    · have hstep : hears.next (hearing, held) a r = (hearing, (LifeAct.use a).after held) := by
        change (hearing.next a r, _) = _
        rw [hnext r]
      rw [hstep]
      exact ih r (hp.2 r)

/-- A round changes no hearing, and ends without guards. -/
theorem follows_call {round : Round} :
    (call (round.prog settings) : LifeM ι n _).Follows hears (fun st _ => st = (.looping, []))
      (.looping, []) := by
  refine follows_lift (R := ServerAct.Answer) (S := LoopAct.Answer ServerAct.Answer LifeAct.Answer)
    (Prod.mk Hearing.looping) (fun _ _ _ => ?_) (fun _ _ _ _ => rfl)
    (fun held _ hheld => ?_) (@Round.follows_prog _ settings round)
  · intro h
    cases h
  · rw [hheld]

/-- A loop around a `select!` whose body neither waits nor looks at the signal. -/
theorem follows_selectLoop {source : Source}
    {body : source.Item ι → LifeM ι n (Option (IoResult Unit))}
    (hbody : ∀ item, (body item).Follows hears (fun st _ => st = (.looping, [])) (.looping, []))
    (rounds : ℕ) : (selectLoop source body rounds).Follows hears
      (fun st _ => st = (.looping, []) ∨ st = (.leaving, [])) (.looping, []) := by
  have hpark : (park : LifeM ι n (IoResult Unit)).Follows hears
      (fun st _ => st = (.looping, []) ∨ st = (.leaving, [])) (.looping, []) :=
    follows_act (fun h => by cases h) fun r => r.elim
  induction rounds with
  | zero => exact hpark
  | succ rounds ih =>
    refine follows_perform_bind (fun h => by cases h) fun r => ?_
    rcases r with (_ | _) | item
    · exact .inr rfl
    · refine follows_perform_bind rfl fun sent => ?_
      cases sent with
      | true => exact .inr rfl
      | false => exact ih
    · refine follows_bind (hbody item) ?_
      rintro _ (_ | result) rfl
      · exact ih
      · exact .inl rfl

theorem follows_handleRead (item : IoResult (Option Request)) :
    (handleRead settings item : LifeM ι n _).Follows hears (fun st _ => st = (.looping, []))
      (.looping, []) := by
  rcases item with error | _ | q
  · exact rfl
  · exact rfl
  · refine follows_bind follows_call ?_
    rintro _ (error | _) rfl <;> exact rfl

theorem only_own (p : ServerM n α) : (own p : LifeM ι n α).Only LifeAct.Leaves := by
  induction p with
  | ret x => trivial
  | act a k ih => exact ⟨trivial, ih⟩

theorem only_shutDown (rounds : ℕ) (accepted : IoResult Unit) :
    (shutDown settings rounds accepted : LifeM ι n _).Only LifeAct.Leaves := by
  cases accepted with
  | error => exact only_bind (only_perform trivial) fun _ => only_pure _
  | ok =>
    refine only_bind (only_joinClients trivial trivial rounds) fun _ => only_bind (only_perform trivial) fun _ => ?_
    split_ifs
    · exact only_bind (only_perform trivial) fun _ => only_own _
    · exact only_pure _

theorem follows_mainTask (rounds : ℕ) :
    (mainTask settings rounds : LifeM ι n _).Follows hears (fun _ _ => True) (.looping, []) := by
  have hspawn {task : LifeTask ι} : (outer (.spawn task) : LifeM ι n Unit).Follows hears
      (fun st _ => st = (.looping, [])) (.looping, []) :=
    follows_act (fun h => by cases h) fun _ => rfl
  have hworkers : (startWorkers settings : LifeM ι n Unit).Follows hears
      (fun st _ => st = (.looping, [])) (.looping, []) := by
    refine follows_bind hspawn ?_
    rintro _ _ rfl
    split_ifs
    · exact hspawn
    · exact rfl
  have haccepted (item : IoResult ι) : (handleAccepted item : LifeM ι n _).Follows hears
      (fun st _ => st = (.looping, [])) (.looping, []) := by
    cases item with
    | error => exact rfl
    | ok i => exact follows_bind hspawn (by rintro _ _ rfl; exact rfl)
  have hrest (accepted : IoResult Unit) (hearing : Hearing) (h : hearing ≠ .woken) :
      (shutDown settings rounds accepted : LifeM ι n _).Follows hears (fun _ _ => True)
        (hearing, []) :=
    (follows_of_leaves (only_shutDown rounds accepted) hearing h).mono fun _ _ _ => trivial
  refine follows_bind hworkers ?_
  rintro _ _ rfl
  refine follows_bind (follows_selectLoop haccepted rounds) ?_
  rintro _ accepted (rfl | rfl)
  · exact hrest accepted _ (by simp)
  · exact hrest accepted _ (by simp)

theorem LifeCall.follows_hears (c : LifeCall ι) :
    (c.prog settings : LifeM ι n _).Follows hears (fun _ _ => True) (.looping, []) := by
  obtain ⟨task, rounds⟩ := c
  cases task with
  | main => exact follows_mainTask rounds
  | worker w =>
    refine follows_perform_bind (fun h => by cases h) fun _ => ?_
    refine (follows_selectLoop (fun item => ?_) rounds).mono fun _ _ _ => trivial
    refine follows_bind follows_call ?_
    rintro _ _ rfl
    exact rfl
  | client i =>
    refine follows_perform_bind (fun h => by cases h) fun _ => ?_
    refine follows_perform_bind (fun h => by cases h) fun _ => ?_
    refine follows_bind (follows_selectLoop follows_handleRead rounds) ?_
    rintro _ result (rfl | rfl)
    · exact follows_perform_bind (fun h => by cases h) fun _ => trivial
    · exact follows_perform_bind trivial fun _ => trivial

theorem hears_lifeSystem [DecidableEq ι] : Disciplined (lifeSystem (ι := ι) (n := n) settings) (fun _ => hears)
    (fun _ _ _ => True) (.looping, []) Prod.snd :=
  ⟨rfl, fun _ c _ => c.follows_hears, fun _ _ _ _ _ => rfl⟩

end Hearing

section Signal
variable {ι : Type} [DecidableEq ι] {n : ℕ} {settings : Settings} {s s' s₁ : LifeState ι n}
  {t j : LifeTask ι}

namespace LifeState

/-- The receiver of the task has not got ahead of its sender. -/
def InTime (s : LifeState ι n) (t : LifeTask ι) : Prop := s.seen t ≤ s.watch.version

/-- If the signal is sent, then the receiver of the task has not seen it. -/
structure Heeds (s : LifeState ι n) (t : LifeTask ι) : Prop where
  inTime : s.InTime t
  unseen : s.watch.value = true → s.seen t ≠ s.watch.version

theorem Reads.signal {source : Source} (h : s.Reads t source s') :
    s'.watch = s.watch ∧ s'.seen = s.seen := by
  cases h with
  | none | some => exact ⟨rfl, rfl⟩

/-- Only a `select!` and a spawn move a receiver. -/
theorem Does.signal {a : LoopAct (ServerAct n) (LifeAct ι n)}
    {answer : Option (LoopAct.Answer ServerAct.Answer LifeAct.Answer a)} (h : s.Does t a answer s') :
    s'.watch = s.watch ∧ (s'.seen = s.seen ∨
      (∃ source, a = .outer (.select source) ∧ s'.seen = Function.update s.seen t s.watch.version) ∨
      ∃ task, a = .outer (.spawn task) ∧ s'.seen = Function.update s.seen task (s.seen t)) := by
  cases h with
  | spawn => exact ⟨rfl, .inr (.inr ⟨_, rfl, rfl⟩)⟩
  | changed hreads => exact ⟨hreads.signal.1, .inr (.inl ⟨_, rfl, rfl⟩)⟩
  | closed hreads => exact ⟨hreads.signal.1, .inl hreads.signal.2⟩
  | _ => exact ⟨rfl, .inl rfl⟩

/-- A receiver that a `select!` does not wake stays where it is. -/
theorem Does.seen_of_other {source : Source} {item : source.Item ι}
    (h : s.Does t (.outer (.select source)) (some (.other item)) s') :
    s'.watch = s.watch ∧ s'.seen = s.seen := by
  cases h with
  | frame | hangup | readError | socketError | tick | accept | acceptError => exact ⟨rfl, rfl⟩

theorem Does.seen_of_changed {source : Source}
    (h : s.Does t (.outer (.select source)) (some (.changed (.ok ()))) s') :
    s'.watch = s.watch ∧ s'.seen t = s'.watch.version := by
  cases h with
  | changed hreads =>
    refine ⟨hreads.signal.1, ?_⟩
    change Function.update s.seen t s.watch.version t = _
    rw [Function.update_self, hreads.signal.1]

theorem Does.eq_of_borrow {value : Bool} (h : s.Does t (.outer .borrow) (some value) s') :
    value = s.watch.value := by
  cases h with
  | borrow => rfl

omit [DecidableEq ι] in
theorem Heeds.of_eq (h : s.Heeds t) (hwatch : s'.watch = s.watch) (hseen : s'.seen j = s.seen t) :
    s'.Heeds j := by
  refine ⟨?_, ?_⟩
  · unfold InTime
    rw [hwatch, hseen]
    exact h.inTime
  · rw [hwatch, hseen]
    exact h.unseen

end LifeState

/-- A task that waits, or that passes its receiver on, has not seen the signal. -/
def HeedDuty (t : LifeTask ι) (s : LifeState ι n) : LoopAct (ServerAct n) (LifeAct ι n) → Prop
  | .outer (.select _) | .outer (.spawn _) => s.Heeds t
  | _ => True

def heeding (t : LifeTask ι) : Contract (LoopAct (ServerAct n) (LifeAct ι n))
    (LoopAct.Answer ServerAct.Answer LifeAct.Answer) (List (ServerLock n × LockMode))
    (LifeState ι n) where
  after a held := (LifeAct.use a).after held
  duty a _ s := HeedDuty t s a
  does a _ s r s' := s.Does t a (some r) s'
  rely _ s s' := (s.InTime t → s'.InTime t) ∧ (s.Heeds t → s'.Heeds t)
  rely_refl _ _ := ⟨id, id⟩
  rely_trans h h' := ⟨fun hs => h'.1 (h.1 hs), fun hs => h'.2 (h.2 hs)⟩

section Attention
open Contract

theorem heeding_stable {held : List (ServerLock n × LockMode)} (hs : s.Heeds t)
    (hrely : (heeding t).rely held s s') : s'.Heeds t := hrely.2 hs

/-- An action that moves no receiver. -/
theorem LifeState.Does.heeds {a : LoopAct (ServerAct n) (LifeAct ι n)}
    {answer : Option (LoopAct.Answer ServerAct.Answer LifeAct.Answer a)} (h : s.Does j a answer s')
    (ha : ∀ source, a ≠ .outer (.select source)) (hs : s.Heeds t)
    (hspawn : ∀ task, a = .outer (.spawn task) → s.Heeds j) : s'.Heeds t := by
  obtain ⟨hwatch, hseen | ⟨source, rfl, -⟩ | ⟨task, rfl, hseen⟩⟩ := h.signal
  · exact hs.of_eq hwatch (congrFun hseen t)
  · exact absurd rfl (ha source)
  · by_cases ht : t = task
    · subst ht
      refine (hspawn t rfl).of_eq hwatch ?_
      rw [hseen, Function.update_self]
    · refine hs.of_eq hwatch ?_
      rw [hseen, Function.update_of_ne ht]

theorem keeps_heeding_selectLoop {source : Source}
    {body : source.Item ι → LifeM ι n (Option (IoResult Unit))}
    (hbody : ∀ item s, s.Heeds t → (heeding t).Keeps (fun _ held s => held = [] ∧ s.Heeds t)
      (body item) [] s) (rounds : ℕ) (h : s.Heeds t) :
    (heeding t).Keeps (fun _ _ _ => True) (selectLoop source body rounds) [] s := by
  refine keeps_selectLoop (fun _ => rfl) (fun s s' => heeding_stable) (fun _ _ => trivial)
    (fun _ hs => hs) (fun _ _ _ _ _ _ => trivial) ?_ ?_ rounds h
  · -- the signal is looked at after the receiver has seen it
    intro s s' hs hdoes s₁ hrely
    have hin : s₁.InTime t := by
      refine hrely.1 ?_
      unfold LifeState.InTime
      exact le_of_eq (LifeState.Does.seen_of_changed hdoes).2
    refine ⟨trivial, fun sent s₂ hborrow s₃ hrely' => ⟨rfl, fun _ _ _ => trivial, fun hsent => ?_⟩⟩
    cases hborrow with
    | borrow =>
      refine hrely'.2 ⟨hin, fun hvalue => ?_⟩
      rw [hsent] at hvalue
      cases hvalue
  · intro item s s' hs hdoes
    obtain ⟨hwatch, hseen⟩ := LifeState.Does.seen_of_other hdoes
    refine (hbody item s' (hs.of_eq hwatch (congrFun hseen t))).mono ?_
    rintro (_ | result) held s ⟨rfl, hs⟩
    · exact ⟨rfl, hs⟩
    · exact ⟨rfl, fun _ _ => trivial⟩

theorem keeps_heeding_call {round : Round} (h : s.Heeds t) :
    (heeding t).Keeps (fun _ held s => held = [] ∧ s.Heeds t) (call (round.prog settings)) [] s := by
  refine keeps_call (fun _ _ => rfl) (fun _ s s' => heeding_stable) ?_ h
  intro a held s hs
  exact ⟨trivial, fun r s' hdoes => hdoes.heeds (by simp) hs (by simp)⟩

/-- One action of the loop that moves no receiver. -/
theorem keeps_heeding_outer {o : LifeAct ι n} (ho : ∀ source, o ≠ .select source)
    (hown : ∀ a, o ≠ .own a) (h : s.Heeds t) :
    (heeding t).Keeps (fun _ held s => held = [] ∧ s.Heeds t) (outer o) [] s := by
  intro s₁ hrely
  have hs₁ := heeding_stable h hrely
  have hduty : HeedDuty t s₁ (.outer o) := by
    unfold HeedDuty
    split
    · exact hs₁
    · exact hs₁
    · trivial
  refine ⟨hduty, fun r s₂ hdoes s₃ hrely' => ⟨?_, ?_⟩⟩
  · cases o with
    | own a => exact absurd rfl (hown a)
    | _ => rfl
  · refine hrely'.2 (hdoes.heeds (by simpa using ho) hs₁ fun _ _ => hs₁)

theorem LifeCall.keeps_heeding (c : LifeCall ι) (h : s.Heeds t) :
    (heeding t).Keeps (fun _ _ _ => True) (c.prog settings : LifeM ι n _) [] s := by
  have hfree {α : Type} {p : LifeM ι n α} (hp : p.Only LifeAct.Leaves) {held} {s : LifeState ι n} :
      (heeding t).Keeps (fun _ _ _ => True) p held s := by
    refine (keeps_only (I := fun _ _ => True) hp (fun _ _ _ _ _ => trivial) ?_ trivial).mono
      fun _ _ _ _ => trivial
    intro a held s ha _
    refine ⟨?_, fun _ _ _ => trivial⟩
    change HeedDuty t s a
    unfold HeedDuty
    split
    · exact ha.elim
    · exact ha.elim
    · trivial
  obtain ⟨task, rounds⟩ := c
  cases task with
  | main =>
    refine keeps_bind (P := fun _ held s => held = [] ∧ s.Heeds t) ?_ ?_
    · refine keeps_bind (keeps_heeding_outer (by simp) (by simp) h) ?_
      rintro _ _ s ⟨rfl, hs⟩
      split_ifs
      · exact keeps_heeding_outer (by simp) (by simp) hs
      · exact keeps_pure fun s' hrely => ⟨rfl, hrely.2 hs⟩
    rintro _ _ s ⟨rfl, hs⟩
    refine keeps_bind (keeps_heeding_selectLoop ?_ rounds hs) fun accepted _ _ _ =>
      hfree (only_shutDown rounds accepted)
    intro item s hs
    cases item with
    | error => exact keeps_pure fun s' hrely => ⟨rfl, hrely.2 hs⟩
    | ok i =>
      refine keeps_bind (keeps_heeding_outer (by simp) (by simp) hs) ?_
      rintro _ _ s ⟨rfl, hs⟩
      exact keeps_pure fun s' hrely => ⟨rfl, hrely.2 hs⟩
  | worker w =>
    refine keeps_bind (keeps_heeding_outer (by simp) (by simp) h) ?_
    rintro _ _ s ⟨rfl, hs⟩
    refine keeps_heeding_selectLoop (fun item s hs => ?_) rounds hs
    refine keeps_bind (keeps_heeding_call hs) ?_
    rintro _ _ s ⟨rfl, hs⟩
    exact keeps_pure fun s' hrely => ⟨rfl, hrely.2 hs⟩
  | client i =>
    refine keeps_bind (keeps_heeding_outer (by simp) (by simp) h) ?_
    rintro _ _ s ⟨rfl, hs⟩
    refine keeps_bind (keeps_heeding_outer (by simp) (by simp) hs) ?_
    rintro _ _ s ⟨rfl, hs⟩
    refine keeps_bind (keeps_heeding_selectLoop (fun item s hs => ?_) rounds hs) fun _ _ _ _ =>
      hfree (p := do outer .decrConnectedClients; return _) ⟨trivial, fun _ => trivial⟩
    rcases item with error | _ | q
    · exact keeps_pure fun s' hrely => ⟨rfl, hrely.2 hs⟩
    · exact keeps_pure fun s' hrely => ⟨rfl, hrely.2 hs⟩
    · refine keeps_bind (keeps_heeding_call hs) ?_
      rintro (error | _) _ s ⟨rfl, hs⟩ <;> exact keeps_pure fun s' hrely => ⟨rfl, hrely.2 hs⟩

end Attention

section Run
variable {cfg cfg' : LifeConfig ι n} {label : Label (LifeTask ι)}

/-- A task that has not begun has made no step. -/
theorem task_ne_of_idle (hstep : Step (lifeSystem settings) cfg label cfg')
    (hidle : cfg'.status t = .idle) : label.task ≠ some t := by
  intro ht
  cases hstep with
  | environment => cases ht
  | start | act | panic | finish =>
    obtain rfl := Option.some.inj ht
    rw [Config.set_status_self] at hidle
    cases hidle

/-- Every task that runs heeds the signal, and so will those that have not begun. -/
structure Attentive (cfg : LifeConfig ι n) : Prop where
  keeps : AllKeep (fun t _ => heeding t) (fun _ _ _ _ _ => True) (fun _ s (_ : List Unit) => s) cfg []
  idle : ∀ t, cfg.status t = .idle → cfg.shared.Heeds t

/-- What the others do, and what happens around the tasks, moves no receiver. -/
theorem Attentive.rely (h : Attentive cfg) (hstep : Step (lifeSystem settings) cfg label cfg')
    (ht : label.task ≠ some t) :
    (cfg.shared.InTime t → cfg'.shared.InTime t) ∧ (cfg.shared.Heeds t → cfg'.shared.Heeds t) := by
  -- whatever another task does
  have hdoes {j : LifeTask ι} {a : LoopAct (ServerAct n) (LifeAct ι n)}
      {answer : Option (LoopAct.Answer ServerAct.Answer LifeAct.Answer a)} {s : LifeState ι n}
      (hduty : HeedDuty j cfg.shared a) (hj : j ≠ t) (hdoes : cfg.shared.Does j a answer s) :
      (cfg.shared.InTime t → s.InTime t) ∧ (cfg.shared.Heeds t → s.Heeds t) := by
    obtain ⟨hwatch, hseen | ⟨source, rfl, hseen⟩ | ⟨task, rfl, hseen⟩⟩ := hdoes.signal
    · refine ⟨fun hin => ?_, fun hs => hs.of_eq hwatch (congrFun hseen t)⟩
      unfold LifeState.InTime
      rw [hwatch, hseen]
      exact hin
    · have heq : s.seen t = cfg.shared.seen t := by
        rw [hseen, Function.update_of_ne hj.symm]
      refine ⟨fun hin => ?_, fun hs => hs.of_eq hwatch heq⟩
      unfold LifeState.InTime
      rw [hwatch, heq]
      exact hin
    · have hheeds : cfg.shared.Heeds j := hduty
      by_cases htask : t = task
      · subst htask
        have hs : s.Heeds t := hheeds.of_eq hwatch (by rw [hseen, Function.update_self])
        exact ⟨fun _ => hs.inTime, fun _ => hs⟩
      · have heq : s.seen t = cfg.shared.seen t := by
          rw [hseen, Function.update_of_ne htask]
        refine ⟨fun hin => ?_, fun hs => hs.of_eq hwatch heq⟩
        unfold LifeState.InTime
        rw [hwatch, heq]
        exact hin
  cases hstep with
  | start | finish => exact ⟨id, id⟩
  | @act j c a k held r s hi hadm hstep =>
    refine hdoes (h.keeps j c _ held hi _ ⟨id, id⟩).1 ?_ hstep
    rintro rfl
    exact ht rfl
  | @panic j c a k held s hi hadm hstep =>
    refine hdoes (h.keeps j c _ held hi _ ⟨id, id⟩).1 ?_ hstep
    rintro rfl
    exact ht rfl
  | environment henv =>
    cases henv with
    | server | ended => exact ⟨id, fun hs => hs.of_eq rfl rfl⟩
    | close => exact ⟨id, fun hs => ⟨hs.inTime, hs.unseen⟩⟩
    | @send value hclosed =>
      have hlater (hin : cfg.shared.InTime t) : cfg.shared.seen t < cfg.shared.watch.version + 1 :=
        Nat.lt_succ_of_le hin
      exact ⟨fun hin => (hlater hin).le, fun hs => ⟨(hlater hs.inTime).le, fun _ => (hlater hs.inTime).ne⟩⟩

theorem Attentive.step (h : Attentive cfg) (hstep : Step (lifeSystem settings) cfg label cfg') :
    Attentive cfg' := by
  refine ⟨?_, fun t hidle => ?_⟩
  · refine h.keeps.step (fun _ _ _ _ => rfl) hstep ?_ ?_ ?_
    · intro t c hlabel _ hshared
      refine c.keeps_heeding ?_
      rw [hshared]
      refine h.idle t ?_
      subst hlabel
      cases hstep with
      | start hidle => exact hidle
    · intro t c a k held r hlabel hi hadm hdoes
      exact hdoes
    · intro t c p held hi ht
      exact h.rely hstep ht
  · have ht := task_ne_of_idle hstep hidle
    rw [hstep.status_eq ht] at hidle
    exact (h.rely hstep ht).2 (h.idle t hidle)

variable {server : ServerState (LifeTask ι) n} {sends : ι → List Bytes} {maxFrameSize : ℕ}

theorem attentive_of_reachable
    (h : Reachable (lifeSystem settings) (.started server sends maxFrameSize) cfg) :
    Attentive cfg := by
  refine h.invariant (I := Attentive) ⟨fun t c p held hi => ?_, fun t _ => ⟨le_rfl, ?_⟩⟩
    fun _ _ _ _ hcfg hstep => hcfg.step hstep
  · cases hi
  · intro hvalue
    cases hvalue

/-- The signal is set, or its sender is gone. -/
def Watch.Sent (watch : Watch) : Prop := watch.value = true ∨ watch.closed = true

/-- The branch of the signal is ready in a `select!` of the task. -/
def LifeState.Signals (s : LifeState ι n) (t : LifeTask ι) (source : Source) : Prop :=
  ∃ result s', s.Does t (.outer (.select source)) (some (.changed result)) s'

/-- A task does nothing more that loops do, or has ended. -/
def LifeStatus.Leaving : LifeStatus ι n → Prop
  | .running _ p _ => p.Only LifeAct.Leaves
  | .done _ => True
  | .idle => False

/-- A task leaves, or it looks at the signal first, and leaves if that is set. -/
def LifeStatus.Turning : LifeStatus ι n → Prop
  | .running _ p _ => p.Only LifeAct.Leaves ∨
    ∃ k, p = .act (.outer .borrow) k ∧ (k true).Only LifeAct.Leaves
  | .done _ => True
  | .idle => False

omit [DecidableEq ι] in
theorem LifeStatus.Leaving.turning {status : LifeStatus ι n} (h : LifeStatus.Leaving status) :
    LifeStatus.Turning status := by
  cases status with
  | idle => exact h
  | running => exact .inl h
  | done => trivial

/-- A task that leaves goes on leaving. -/
theorem leaving_of_step (hstep : Step (lifeSystem settings) cfg label cfg')
    (h : LifeStatus.Leaving (cfg.status t)) : LifeStatus.Leaving (cfg'.status t) := by
  rcases hstep.status_cases t with hs | ⟨_, -, hidle, -⟩ | ⟨_, _, _, _, _, -, hi, -, -, hs⟩ |
    ⟨_, _, _, _, -, -, -, hs⟩ | ⟨_, _, _, -, -, hs⟩
  · rwa [hs]
  · rw [hidle] at h
    exact h.elim
  · rw [hi] at h
    rw [hs]
    exact h.2 _
  all_goals
    rw [hs]
    trivial

/-- A task that turns leaves with its next step, if the signal is set then. -/
theorem turning_of_step (hstep : Step (lifeSystem settings) cfg label cfg')
    (hvalue : cfg.shared.watch.value = true) (h : LifeStatus.Turning (cfg.status t)) :
    LifeStatus.Turning (cfg'.status t) ∧
      (label.task = some t → LifeStatus.Leaving (cfg'.status t)) := by
  by_cases ht : label.task = some t
  · suffices hleaving : LifeStatus.Leaving (cfg'.status t) from ⟨hleaving.turning, fun _ => hleaving⟩
    cases hstep with
    | environment => cases ht
    | start hidle =>
      obtain rfl := Option.some.inj ht
      rw [hidle] at h
      exact h.elim
    | panic hi | finish hi =>
      obtain rfl := Option.some.inj ht
      rw [Config.set_status_self]
      trivial
    | @act i c a k held r s hi hadm hdoes =>
      obtain rfl := Option.some.inj ht
      rw [hi] at h
      rw [Config.set_status_self]
      rcases h with honly | ⟨k', hp, honly⟩
      · exact honly.2 r
      · cases hp
        obtain rfl : r = true := (LifeState.Does.eq_of_borrow hdoes).trans hvalue
        exact honly
  · rw [hstep.status_eq ht]
    exact ⟨h, fun heq => absurd heq ht⟩

theorem leaving_of_run {labels : List (Label (LifeTask ι))}
    (hrun : Run (lifeSystem settings) cfg labels cfg') (h : LifeStatus.Leaving (cfg.status t)) :
    LifeStatus.Leaving (cfg'.status t) := by
  induction hrun with
  | nil => exact h
  | snoc _ hstep ih => exact leaving_of_step hstep ih

/-- The signal is set at every step of a run. -/
theorem turning_of_observed {labels : List (Label (LifeTask ι))} {values : List Bool}
    (hrun : Observed (lifeSystem settings) (fun cfg _ => [cfg.shared.watch.value]) cfg labels values
      cfg') (hvalues : ∀ value ∈ values, value = true) (h : LifeStatus.Turning (cfg.status t)) :
    LifeStatus.Turning (cfg'.status t) ∧
      ((∃ label ∈ labels, label.task = some t) → LifeStatus.Leaving (cfg'.status t)) := by
  induction hrun with
  | nil => exact ⟨h, by simp⟩
  | @snoc labels values cfg₁ cfg₂ label hrun hstep ih =>
    obtain ⟨hturning, hleaving⟩ := ih fun value hmem => hvalues value (List.mem_append_left _ hmem)
    have hvalue : cfg₁.shared.watch.value = true := hvalues _ (by simp)
    obtain ⟨hnext, hown⟩ := turning_of_step hstep hvalue hturning
    refine ⟨hnext, ?_⟩
    rintro ⟨l, hmem, hl⟩
    rcases List.mem_append.mp hmem with hmem | hmem
    · exact leaving_of_step hstep (hleaving ⟨l, hmem, hl⟩)
    · obtain rfl := List.mem_singleton.mp hmem
      exact hown hl

theorem status_of_others {labels : List (Label (LifeTask ι))}
    (hrun : Run (lifeSystem settings) cfg labels cfg')
    (hothers : ∀ label ∈ labels, label.task ≠ some t) : cfg'.status t = cfg.status t := by
  induction hrun with
  | nil => rfl
  | snoc _ hstep ih =>
    rw [hstep.status_eq (hothers _ (by simp))]
    exact ih fun label hmem => hothers label (List.mem_append_left _ hmem)

/-- No task misses the shutdown. While the signal is set, or its sender is gone, a task that waits
for requests, ticks or connections has the branch of the signal ready until it acts itself. If it
takes that branch because the sender is gone, it leaves its loop for good; if because the signal was
sent, it does so, as long as the signal stays set, with its next step at the latest. -/
theorem shutdown_heeded {c : LifeCall ι} {source : Source}
    {k : LoopAct.Answer ServerAct.Answer LifeAct.Answer (.outer (.select source) : LoopAct (ServerAct n)
      (LifeAct ι n)) → LifeM ι n (IoResult Unit)} {held : List (ServerLock n × LockMode)}
    (h : Reachable (lifeSystem settings) (.started server sends maxFrameSize) cfg)
    (hi : cfg.status t = .running c (.act (.outer (.select source)) k) held) :
    (∀ labels cfg', Run (lifeSystem settings) cfg labels cfg' →
      (∀ label ∈ labels, label.task ≠ some t) → cfg'.shared.watch.Sent →
      cfg'.status t = cfg.status t ∧ cfg'.shared.Signals t source) ∧
    ∀ result s labels values cfg',
      cfg.shared.Does t (.outer (.select source)) (some (.changed result)) s →
      Observed (lifeSystem settings) (fun cfg _ => [cfg.shared.watch.value])
        (cfg.set t s (.running c (k (.changed result)) held)) labels values cfg' →
      (result = .error () → LifeStatus.Leaving (cfg'.status t)) ∧
      ((∀ value ∈ values, value = true) → LifeStatus.Turning (cfg'.status t) ∧
        ((∃ label ∈ labels, label.task = some t) → LifeStatus.Leaving (cfg'.status t))) := by
  obtain ⟨⟨hearing, held⟩, hfollows, rfl, -⟩ := hears_lifeSystem.follows_of_reachable h hi
  obtain rfl : hearing = .looping := by
    cases hearing with
    | looping => rfl
    | woken => cases hfollows.1
    | leaving => exact (show False from hfollows.1).elim
  refine ⟨fun labels cfg' hrun hothers hsent => ?_, fun result s labels values cfg' _ hrun => ?_⟩
  · have hstatus := status_of_others hrun hothers
    refine ⟨hstatus, ?_⟩
    have hheeds : cfg'.shared.Heeds t :=
      ((attentive_of_reachable (h.run hrun)).keeps t c _ held (hstatus.trans hi) _ ⟨id, id⟩).1
    by_cases hseen : cfg'.shared.seen t = cfg'.shared.watch.version
    · -- the signal has been seen, so it is the sender that is gone
      have hclosed : cfg'.shared.watch.closed = true :=
        hsent.resolve_left fun hvalue => hheeds.unseen hvalue hseen
      exact ⟨_, _, .closed .none hseen hclosed⟩
    · exact ⟨_, _, .changed .none hseen⟩
  · have hself := cfg.set_status_self t s (.running c (k (.changed result)) held)
    refine ⟨?_, fun hvalues => turning_of_observed hrun hvalues ?_⟩
    · rintro rfl
      apply leaving_of_run hrun.run
      rw [hself]
      exact only_of_leaving (hfollows.2 (.changed (.error ())))
    · rw [hself]
      have hnext := hfollows.2 (.changed result)
      rcases result with ⟨⟩ | ⟨⟩
      · exact .inl (only_of_leaving hnext)
      · cases hk : k (.changed (.ok ())) with
        | ret result => exact .inl trivial
        | act a k' =>
          rw [hk] at hnext
          obtain rfl : a = .outer .borrow := hnext.1
          exact .inr ⟨k', rfl, only_of_leaving (hnext.2 true)⟩

end Run

end Signal

section Sample

def lifeTasks : Finset (LifeTask (Fin 1)) := {.main, .worker .ttl, .worker .rewrite, .client 0}

theorem mem_lifeTasks (t : LifeTask (Fin 1)) : t ∈ lifeTasks := by
  cases t with
  | main => decide
  | worker w => cases w <;> decide
  | client i =>
    obtain rfl := Subsingleton.elim i 0
    decide

instance : Fintype (LifeTask (Fin 1)) := ⟨lifeTasks, mem_lifeTasks⟩

abbrev sampleLife := lifeSystem (ι := Fin 1) (n := 0) sampleSettings

instance : DecidableRel sampleLife.compatible := inferInstanceAs (DecidableRel LockMode.Compatible)

/-- A server with one client, that sets a key. -/
def sampleStart : LifeState (Fin 1) 0 :=
  .started (.fresh (LifeTask (Fin 1)) 0 samplePath) (fun _ => [setRequest.frame]) 1024

/-- The client is accepted and served, and the workers wait for their ticks. -/
def servingMoves : List (Move (LifeTask (Fin 1)) (LifeCall (Fin 1)) ⊕ LifeEvent (Fin 1)) :=
  .inl (.start .main ⟨.main, 2⟩) :: List.replicate 4 (.inl (.go .main)) ++
  .inl (.start (.client 0) ⟨.client 0, 2⟩) :: List.replicate 23 (.inl (.go (.client 0))) ++
  .inl (.start (.worker .ttl) ⟨.worker .ttl, 1⟩) :: .inl (.go (.worker .ttl)) ::
  .inl (.start (.worker .rewrite) ⟨.worker .rewrite, 1⟩) :: [.inl (.go (.worker .rewrite))]

/-- The signal is sent, and all tasks end. -/
def closingMoves : List (Move (LifeTask (Fin 1)) (LifeCall (Fin 1)) ⊕ LifeEvent (Fin 1)) :=
  .inr .send :: List.replicate 2 (.inl (.go .main)) ++
  List.replicate 4 (.inl (.go (.client 0))) ++ .inr (.ended (.client 0)) ::
  List.replicate 3 (.inl (.go (.worker .ttl))) ++ .inr (.ended (.worker .ttl)) ::
  List.replicate 3 (.inl (.go (.worker .rewrite))) ++ .inr (.ended (.worker .rewrite)) ::
  List.replicate 10 (.inl (.go .main))

/-- The run of these moves, with what is observed. -/
def living {ω : Type} (observe : LifeConfig (Fin 1) 0 → Label (LifeTask (Fin 1)) → List ω)
    (moves : List (Move (LifeTask (Fin 1)) (LifeCall (Fin 1)) ⊕ LifeEvent (Fin 1))) :
    Option (List (Label (LifeTask (Fin 1))) × List ω × LifeConfig (Fin 1) 0) :=
  watchAround sampleLife (LifeState.handler 0 [setRequest]) LifeEvent.around observe
    (.initial sampleStart) moves

theorem starts_of_mem {t : LifeTask (Fin 1)} {c : LifeCall (Fin 1)}
    (h : .inl (.start t c) ∈ servingMoves ++ closingMoves) : sampleLife.starts t c := by
  simp only [servingMoves, closingMoves, List.cons_append, List.append_assoc, List.nil_append,
    List.mem_cons, List.mem_append, List.mem_replicate, reduceCtorEq, Sum.inl.injEq,
    Move.start.injEq, and_false, or_false, false_or] at h
  rcases h with ⟨rfl, rfl⟩ | ⟨rfl, rfl⟩ | ⟨rfl, rfl⟩ | ⟨rfl, rfl⟩ <;> exact ⟨rfl, fun _ => rfl⟩

theorem observed_living {ω : Type}
    {observe : LifeConfig (Fin 1) 0 → Label (LifeTask (Fin 1)) → List ω}
    {moves : List (Move (LifeTask (Fin 1)) (LifeCall (Fin 1)) ⊕ LifeEvent (Fin 1))}
    {labels : List (Label (LifeTask (Fin 1)))} {seen : List ω} {cfg : LifeConfig (Fin 1) 0}
    (hmoves : moves ⊆ servingMoves ++ closingMoves)
    (h : living observe moves = some (labels, seen, cfg)) :
    Observed sampleLife observe (.initial sampleStart) labels seen cfg :=
  observed_of_watchAround (LifeState.handles_lifeSystem 0 [setRequest]) surrounds_lifeSystem
    (fun _ _ hm => starts_of_mem (hmoves hm)) h

def LifeStatus.waits : LifeStatus (Fin 1) 0 → Bool
  | .running _ (.act (.outer (.select _)) _) _ => true
  | _ => false

theorem LifeStatus.running_of_waits {status : LifeStatus (Fin 1) 0} (h : LifeStatus.waits status) :
    ∃ c source k held, status = .running c (.act (.outer (.select source)) k) held := by
  unfold LifeStatus.waits at h
  split at h
  · exact ⟨_, _, _, _, rfl⟩
  · cases h

/-- What happens next, with the values of the signal. -/
def livingOn (cfg : LifeConfig (Fin 1) 0)
    (moves : List (Move (LifeTask (Fin 1)) (LifeCall (Fin 1)) ⊕ LifeEvent (Fin 1))) :
    Option (List (Label (LifeTask (Fin 1))) × List Bool × LifeConfig (Fin 1) 0) :=
  watchAround sampleLife (LifeState.handler 0 [setRequest]) LifeEvent.around
    (fun cfg _ => [cfg.shared.watch.value]) cfg moves

theorem observed_livingOn {cfg cfg' : LifeConfig (Fin 1) 0}
    {moves : List (Move (LifeTask (Fin 1)) (LifeCall (Fin 1)) ⊕ LifeEvent (Fin 1))}
    {labels : List (Label (LifeTask (Fin 1)))} {values : List Bool}
    (hmoves : moves ⊆ servingMoves ++ closingMoves)
    (h : livingOn cfg moves = some (labels, values, cfg')) :
    Observed sampleLife (fun cfg _ => [cfg.shared.watch.value]) cfg labels values cfg' :=
  observed_of_watchAround (LifeState.handles_lifeSystem 0 [setRequest]) surrounds_lifeSystem
    (fun _ _ hm => starts_of_mem (hmoves hm)) h

theorem signal_facts : (living (fun _ _ => ([] : List Unit)) (servingMoves ++ [.inr .send])).any
    (fun o => LifeStatus.waits (o.2.2.status (.client 0)) &&
      (livingOn o.2.2 (List.replicate 2 (.inl (.go .main)))).any (fun o₁ =>
        decide (∀ label ∈ o₁.1, label.task ≠ some (.client 0)) && o₁.2.2.shared.watch.value) &&
      (livingOn o.2.2 [.inl (.go (.client 0))]).any fun o₁ =>
        o₁.1 == [.act (.client 0)] &&
          o₁.2.2.shared.seen (.client 0) != o.2.2.shared.seen (.client 0) &&
        (livingOn o₁.2.2 [.inl (.go (.client 0))]).any fun o₂ =>
          o₂.1 == [.act (.client 0)] && o₂.2.1 == [true]) = true := by
  decide +kernel

/-- The client has had its reply and waits for more, when the signal is sent. -/
theorem shutdown_heeded_served : ∃ labels seen cfg,
    living (fun _ _ => ([] : List Unit)) (servingMoves ++ [.inr .send]) = some (labels, seen, cfg) ∧
      (∃ source labels values cfg', livingOn cfg (List.replicate 2 (.inl (.go .main))) =
        some (labels, values, cfg') ∧ cfg'.shared.Signals (.client 0) source) ∧
      ∃ labels₁ values₁ cfg₁ labels₂ values₂ cfg₂,
        livingOn cfg [.inl (.go (.client 0))] = some (labels₁, values₁, cfg₁) ∧
        livingOn cfg₁ [.inl (.go (.client 0))] = some (labels₂, values₂, cfg₂) ∧
        LifeStatus.Turning (cfg₁.status (.client 0)) ∧
        LifeStatus.Leaving (cfg₂.status (.client 0)) := by
  obtain ⟨⟨labels, seen, cfg⟩, hrun, hfacts⟩ := (Option.any_eq_true ..).mp signal_facts
  simp only [Bool.and_eq_true] at hfacts
  obtain ⟨⟨hwaits, hothers⟩, hown⟩ := hfacts
  have hobserved := observed_living (by simp [closingMoves]) hrun
  obtain ⟨c, source, k, held, hi⟩ := LifeStatus.running_of_waits hwaits
  obtain ⟨hready, hanswered⟩ := shutdown_heeded ⟨labels, hobserved.run⟩ hi
  refine ⟨labels, seen, cfg, hrun, ?_, ?_⟩
  · -- the server's own task goes first
    obtain ⟨⟨labels', values, cfg'⟩, hmain, hfacts⟩ := (Option.any_eq_true ..).mp hothers
    rw [Bool.and_eq_true, decide_eq_true_eq] at hfacts
    have hrun' := observed_livingOn (by simp [closingMoves]) hmain
    exact ⟨source, labels', values, cfg', hmain,
      (hready labels' cfg' hrun'.run hfacts.1 (.inl hfacts.2)).2⟩
  · -- the client goes first
    obtain ⟨⟨labels₁, values₁, cfg₁⟩, hfirst, hfacts⟩ := (Option.any_eq_true ..).mp hown
    simp only [Bool.and_eq_true, beq_iff_eq, bne_iff_ne] at hfacts
    obtain ⟨⟨rfl, hseen⟩, hsecond⟩ := hfacts
    obtain ⟨⟨labels₂, values₂, cfg₂⟩, hsecond, hfacts⟩ := (Option.any_eq_true ..).mp hsecond
    simp only [Bool.and_eq_true, beq_iff_eq] at hfacts
    obtain ⟨rfl, rfl⟩ := hfacts
    refine ⟨_, values₁, cfg₁, _, _, cfg₂, hfirst, hsecond, ?_⟩
    have hnext := observed_livingOn (by simp [closingMoves]) hsecond
    cases (observed_livingOn (by simp [closingMoves]) hfirst).run.step with
    | @act _ c' a k' held' r s hi' _ hdoes =>
      rw [hi] at hi'
      cases hi'
      -- only the signal is marked as seen
      obtain ⟨result, rfl⟩ : ∃ result, r = .changed result := by
        cases hdoes with
        | changed => exact ⟨_, rfl⟩
        | closed => exact ⟨_, rfl⟩
        | _ => exact absurd rfl hseen
      have hnow := (hanswered result s [] [] _ hdoes .nil).2 (by simp)
      have hthen := (hanswered result s _ _ _ hdoes hnext).2 (by simp)
      exact ⟨hnow.1, hthen.2 ⟨_, List.mem_singleton_self _, rfl⟩⟩

end Sample

end RustKV
